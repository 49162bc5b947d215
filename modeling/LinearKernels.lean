import LinearKernels.Main
import LinearKernels.Proofs.CacheRuns
import LinearKernels.Proofs.Emission
import LinearKernels.Proofs.Freshness
import LinearKernels.Proofs.Fusion
import LinearKernels.Proofs.KeyIdentity
import LinearKernels.Proofs.LoopRanges
import LinearKernels.Proofs.PlanShape
import LinearKernels.Proofs.Signatures
import LinearKernels.Proofs.Grammar
import LinearKernels.Proofs.Reading
import LinearKernels.Proofs.FileReading
import LinearKernels.Proofs.ForeignNumbers
import LinearKernels.Proofs.Acceptance
import LinearKernels.Proofs.LoweredFiles
import LinearKernels.Proofs.SharedTemporaries
import LinearKernels.Proofs.Respelling
import LinearKernels.Proofs.MatrixOffsets
import LinearKernels.Proofs.NestingDepth
import LinearKernels.Proofs.RegistryRuns
import LinearKernels.Proofs.KernelExpressions
import LinearKernels.Proofs.KernelInstructions
import LinearKernels.Proofs.WorkGroups
import LinearKernels.Proofs.TreeReduction
import LinearKernels.Proofs.PhraseValues
import LinearKernels.Proofs.ReductionBodies
import LinearKernels.Proofs.InnerProducts
import LinearKernels.Proofs.ItemScope
import LinearKernels.Proofs.NestingCounter
import LinearKernels.Proofs.Recovery
import LinearKernels.Proofs.Rebinding
import LinearKernels.Proofs.NeededReductions
import LinearKernels.Proofs.CodeMeaning
import LinearKernels.Proofs.Widths
import LinearKernels.Proofs.DoublePrecision
import LinearKernels.Proofs.Scanning
import LinearKernels.Proofs.ExpressionTokens
import LinearKernels.Proofs.ExpressionSpans
import LinearKernels.Proofs.JsonText
import LinearKernels.Proofs.JsonReading
import LinearKernels.Proofs.Manifests
import LinearKernels.Proofs.CacheHistory
import LinearKernels.Proofs.SettingsText
import LinearKernels.Proofs.KernelNames
import LinearKernels.Proofs.StrayCharacters
import LinearKernels.Proofs.OrderedTerms
import LinearKernels.Proofs.IndexTexts
