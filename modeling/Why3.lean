import Why3.Metatheory.Foundness
import Why3.Metatheory.Termination
import Why3.Metatheory.SplitGoal
import Why3.Metatheory.CoercionUnion
import Why3.Metatheory.Scheduler
import Why3.Metatheory.ServerIsolation
import Why3.Metatheory.Assign
import Why3.Metatheory.CallProvers
import Why3.Metatheory.ServerOutput
import Why3.Metatheory.StoredCounts
import Why3.Metatheory.FloatLiteral
import Why3.Metatheory.RealPrint
import Why3.Metatheory.Pairing
import Why3.Metatheory.StrictEqual
import Why3.Metatheory.Inductive
import Why3.Metatheory.MapSign
import Why3.Metatheory.IndItp
import Why3.Metatheory.Bisection
import Why3.Metatheory.IdentPrinter
import Why3.Metatheory.Sysutil
import Why3.Metatheory.Python
import Why3.Metatheory.Shape
import Why3.Metatheory.Typeinv
import Why3.Metatheory.Queue
