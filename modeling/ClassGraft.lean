import ClassGraft.ClassBuilder
import ClassGraft.Feature.Enhancement
import ClassGraft.Form.Class
import ClassGraft.Form.Predicate
import ClassGraft.Form.Rule
import ClassGraft.Main
import ClassGraft.Proofs.DepthPaths
import ClassGraft.Proofs.SiteValidation
import ClassGraft.Proofs.FrameRoundTrip
import ClassGraft.Proofs.PoolBytes
import ClassGraft.Proofs.ClassBytes
import ClassGraft.Proofs.ClassChanges
import ClassGraft.Proofs.RuleRuns
import ClassGraft.Proofs.PatchOutcomes
import ClassGraft.Proofs.EditedCode
import ClassGraft.Proofs.FailurePolicies
import ClassGraft.Proofs.PoolRequests
import ClassGraft.Proofs.StackWidths
import ClassGraft.Proofs.StackEffects
import ClassGraft.Proofs.FrameDepths
import ClassGraft.Proofs.RepeatedValidation
import ClassGraft.Code.Arena
import ClassGraft.Proofs.ArenaChanges
import ClassGraft.Proofs.NameResolution
import ClassGraft.Proofs.ClassPatching
import ClassGraft.Proofs.PoolEntries
import ClassGraft.Proofs.LoadDecoding
import ClassGraft.Proofs.ConstantLoads
import ClassGraft.Proofs.BlendGuards
import ClassGraft.Proofs.NullDetours
import ClassGraft.Proofs.HatLayerFallback
import ClassGraft.Proofs.FrameExpansion
import ClassGraft.Proofs.FlowSteps
import ClassGraft.Proofs.LazyLookup
import ClassGraft.Proofs.StableCode
import ClassGraft.Proofs.CheckedEncoding
import ClassGraft.Proofs.TextForms
import ClassGraft.Proofs.AssignedFlags
import ClassGraft.Proofs.TypedAttributes
import ClassGraft.Proofs.LabelTargets
import ClassGraft.Proofs.EffectSums
import ClassGraft.Proofs.OperandChanges
import ClassGraft.Proofs.InsertedCode
import ClassGraft.Patch.Matching
import ClassGraft.Proofs.InstructionMatching
import ClassGraft.Proofs.ReverseLookup
import ClassGraft.Proofs.SetAttributes
import ClassGraft.Proofs.DamagedBlockOffsets
import ClassGraft.Proofs.NameFaults
import ClassGraft.Proofs.RuleFaults
import ClassGraft.Proofs.DescriptorNames
import ClassGraft.Proofs.CodeLayout
import ClassGraft.Proofs.PairedLocals
