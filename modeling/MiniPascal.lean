import MiniPascal.Main
import MiniPascal.Trace
import MiniPascal.Proofs.DeclaredOnce
import MiniPascal.Proofs.ExpressionLevels
import MiniPascal.Proofs.Soundness
import MiniPascal.Proofs.Pointers
import MiniPascal.Proofs.Halting
import MiniPascal.Proofs.SectionRecovery
import MiniPascal.Proofs.OrderIndependence
import MiniPascal.Proofs.StringConstants
import MiniPascal.Proofs.Formats
import MiniPascal.Proofs.MinusSigns
import MiniPascal.Proofs.Outputs
import MiniPascal.Proofs.FoldedExpressions
import MiniPascal.Proofs.FiniteReals
import MiniPascal.Proofs.FreshNames
import MiniPascal.Proofs.ArrayAccesses
import MiniPascal.Proofs.Carets
import MiniPascal.Proofs.LookupStability
import MiniPascal.Proofs.ErrorTypes
import MiniPascal.Proofs.Duplicates
import MiniPascal.Proofs.ExpressionTexts
