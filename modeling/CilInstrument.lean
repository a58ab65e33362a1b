import CilInstrument.Proofs.StepRuns
import CilInstrument.Session.Finish
import CilInstrument.Session.Lookup
import CilInstrument.Proofs.BuilderSteps
import CilInstrument.Proofs.Actions
import CilInstrument.Proofs.Changes
import CilInstrument.Proofs.Linking
import CilInstrument.Proofs.JumpTargets
import CilInstrument.Proofs.ControlFlow
import CilInstrument.Proofs.RecordedEffects
import CilInstrument.Proofs.StackDepth
import CilInstrument.Proofs.StoredMethod
import CilInstrument.Proofs.LabelDepth
import CilInstrument.Proofs.SectionBytes
import CilInstrument.Proofs.BodyBytes
import CilInstrument.Proofs.Blocks
import CilInstrument.Proofs.Calls
import CilInstrument.Proofs.WrittenBody
import CilInstrument.Proofs.CanonicalBody
import CilInstrument.Proofs.UnchangedRewrite
import CilInstrument.Proofs.ClauseNesting
import CilInstrument.Proofs.SealedHandlers
import CilInstrument.Proofs.SignatureForms
import CilInstrument.Proofs.Recognition
import CilInstrument.Proofs.SignatureReading
import CilInstrument.Proofs.Truncation
import CilInstrument.Proofs.CacheEntries
import CilInstrument.Proofs.CacheClients
import CilInstrument.Proofs.LookupNames
import CilInstrument.Proofs.VarargForms
import CilInstrument.Proofs.VarargPointers
import CilInstrument.Proofs.RecordedHost
import CilInstrument.Proofs.FinalStep
import CilInstrument.Proofs.CommitDiscipline
import CilInstrument.Proofs.TinyBody
import CilInstrument.Proofs.OwnCode
import CilInstrument.Proofs.KeptRegions
import CilInstrument.Proofs.Disassembly
import CilInstrument.Proofs.InstructionStream
import CilInstrument.Proofs.SectionChains
import CilInstrument.Proofs.SectionRoundTrip
import CilInstrument.Proofs.ShortestForms
import CilInstrument.Proofs.LocalsGrowth
import CilInstrument.Proofs.RefusedActions
import CilInstrument.Proofs.DisabledCache
import CilInstrument.Proofs.EnclosedCode
import CilInstrument.Proofs.ProtectedRegion
import CilInstrument.Proofs.LookupDepth
import CilInstrument.Proofs.KnownNames
import CilInstrument.Proofs.NullChecks
import CilInstrument.Proofs.LookupChecks
import CilInstrument.Proofs.ParameterBlobs
import CilInstrument.Proofs.ArrayElements
import CilInstrument.Proofs.ArrayLayout
import CilInstrument.Proofs.ParameterTypes
import CilInstrument.Proofs.MemberText
import CilInstrument.Proofs.ReturnModifiers
import CilInstrument.Proofs.PackedTokens
import CilInstrument.Proofs.MildReading
import CilInstrument.Proofs.MildBuilding
import CilInstrument.Proofs.FatalRecords
import CilInstrument.Proofs.Tracing
import CilInstrument.Proofs.SectionScan
import CilInstrument.Proofs.SignatureTrace
import CilInstrument.Proofs.SignatureWork
import CilInstrument.Proofs.LevelBudget
