import Descent.Main
import Descent.Parser.Continuation
import Descent.Proofs.NestedList.Recognition
import Descent.Proofs.Levels
import Descent.Proofs.WellNested
import Descent.Proofs.Reasons
import Descent.Text.CharClass
import Descent.Proofs.LeftRecursion
import Descent.Proofs.Beyond
import Descent.Proofs.NestedList.Refusal
import Descent.Proofs.NestedList.Printing
import Descent.Proofs.Sequencing
import Descent.Proofs.OptionalList
import Descent.Proofs.AlikeCalls
import Descent.Proofs.AtLeastOnce
import Descent.Proofs.FixedText
import Descent.Proofs.Fields
import Descent.Proofs.Groups
import Descent.Proofs.LongestRun
import Descent.Proofs.Mapping
import Descent.Proofs.KeptValues
import Descent.Proofs.Counting
import Descent.Proofs.Logging
import Descent.Proofs.NestedList.Tracing
