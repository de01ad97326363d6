import Packrat.Action.Stock
import Packrat.Expr.Build
import Packrat.Proofs.CharClass
import Packrat.Proofs.LeftRecursion.BaseCases
import Packrat.Proofs.LeftRecursion.Classes
import Packrat.Proofs.LeftRecursion.Rearranged
import Packrat.Proofs.LeftRecursion.Unknown
import Packrat.Proofs.Lexer.Acceptance
import Packrat.Proofs.Parse.Bookkeeping
import Packrat.Proofs.Parse.Folds
import Packrat.Proofs.Parse.OtherSide
import Packrat.Proofs.Parse.Plain
import Packrat.Proofs.Parse.Report
import Packrat.Proofs.Parse.Unwinding
import Packrat.Proofs.Parse.Ways
import Packrat.Proofs.Regrouped
import Packrat.Proofs.SpanMap.Cuts
import Packrat.Proofs.Typing.Arguments
import Packrat.Proofs.Typing.Join
import Packrat.Proofs.Typing.Reordered
import Packrat.Proofs.Typing.Vacancy
