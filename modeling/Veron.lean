import Veron.AuthConfSet
import Veron.Base32
import Veron.BuildOrder
import Veron.CheckpointSound
import Veron.CloneCmdline
import Veron.ClosureOrder
import Veron.CopyTreeCorrect
import Veron.DropAsmCorrect
import Veron.ElfImage
import Veron.EmitPos
import Veron.EnrollMaster
import Veron.IdleLock
import Veron.IncludeClosureCorrect
import Veron.LabelResolverCorrect
import Veron.LabelResolverRefusal
import Veron.MallocCalls
import Veron.ManifestDelta
import Veron.MicroCExpressionCorrect
import Veron.MicroCImmediateCorrect
import Veron.MicroCLabelsCorrect
import Veron.MicroCPreprocessEnds
import Veron.MicroCReplaceCorrect
import Veron.MicroCSelectCorrect
import Veron.MicroCStructCorrect
import Veron.MkFatDirs
import Veron.MkFatSpace
import Veron.MkGptCorrect
import Veron.OctalToDecimalCorrect
import Veron.OneShotBoot
import Veron.PackCorrect
import Veron.PicoCLabelsCorrect
import Veron.PicoCOperatorsCorrect
import Veron.Qsort
import Veron.ReachableCorrect
import Veron.RealpathWalk
import Veron.RecipeDir
import Veron.RoundtripOperands
import Veron.SelfAssemblerLabels
import Veron.SelfAssemblerReject
import Veron.SessionLockEnd
import Veron.SoftFloatDiv
import Veron.SoftFloatInt
import Veron.SoftFloatWiden
import Veron.StageSpec
import Veron.StrtodBounds
import Veron.StrtodHex
import Veron.StrtofCorrect
import Veron.Strtol
import Veron.TotpRace
import Veron.TraceRecords
import Veron.TraceWalk
import Veron.Verify
