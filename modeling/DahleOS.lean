import DahleOS.Lib.Codec
import DahleOS.Lib.Forest
import DahleOS.Proof.FsTree
import DahleOS.Proof.Reboot
import DahleOS.Proof.HeaderMerge
import DahleOS.Proof.TornSave
import DahleOS.Proof.AliasRoom
import DahleOS.Proof.BootMemory
import DahleOS.Proof.SaveList
import DahleOS.Proof.AliasMap
import DahleOS.Proof.LineEditor
import DahleOS.Proof.KeyRing
import DahleOS.Proof.ShiftKeys
import DahleOS.Proof.Trapdoor
import DahleOS.Proof.FsErrors
import DahleOS.Proof.CdResolver
import DahleOS.Proof.CanonicalPath
import DahleOS.Proof.PathJoin
import DahleOS.Proof.EnterCreated
import DahleOS.Proof.CurrentPath
import DahleOS.Proof.LoadOutcome
import DahleOS.Proof.Corruption
import DahleOS.Proof.HeaderVersion
import DahleOS.Proof.WriteErrors
import DahleOS.Proof.ConsoleCursor
import DahleOS.Proof.ColourLeak
import DahleOS.Proof.HistoryKeys
import DahleOS.Proof.HistoryRing
import DahleOS.Proof.RepeatCount
import DahleOS.Proof.GraphicsGrammar
import DahleOS.Proof.BooleanWords
import DahleOS.Proof.AluPrints
import DahleOS.Proof.ScpRange
import DahleOS.Proof.MatrixText
import DahleOS.Proof.MatrixStore
import DahleOS.Proof.Gradient
import DahleOS.Proof.InputField
import DahleOS.Proof.ScrollRow
import DahleOS.Proof.NumeralBuffers
import DahleOS.Proof.InterruptStubs
import DahleOS.Proof.Descriptors
import DahleOS.Proof.InterruptRun
import DahleOS.Proof.PanicScreen
import DahleOS.Proof.Typing
import DahleOS.Proof.ConsolePicture
import DahleOS.Proof.AtaStore
import DahleOS.Proof.DesktopWindows
