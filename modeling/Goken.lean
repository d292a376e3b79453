import Goken.Lib.Steps
import Goken.Lib.Arm
import Goken.Types
import Goken.Switch
import Goken.Proofs.SwitchCode
import Goken.Proofs.SwitchDispatch
import Goken.Proofs.SwitchStatement
import Goken.Layout
import Goken.Proofs.Layout
import Goken.Dotext
import Goken.Proofs.Dotext
import Goken.Follow
import Goken.Proofs.Follow
import Goken.Proofs.FollowRun
import Goken.Lib.Bits
import Goken.Lib.Canonical
import Goken.Inflate
import Goken.Proofs.Hufftab
import Goken.Lib.Outcome
import Goken.Proofs.Inflate
import Goken.Lib.Simulation
import Goken.Gen
import Goken.Proofs.GenCode
import Goken.Proofs.GenChain
import Goken.Proofs.GenRun
import Goken.Proofs.Rune
import Goken.Rune
import Goken.Lib.Ring
import Goken.Lib.Bytes
import Goken.Ieee
import Goken.Proofs.Ieee
import Goken.WasmObj
import Goken.Proofs.WasmObj
import Goken.ArmObj
import Goken.Proofs.ArmObj
import Goken.Lib.DList
import Goken.MkRun
import Goken.Lib.Lists
import Goken.Proofs.MkRun
import Goken.Proofs.MkWait
import Goken.MkGraph
import Goken.Proofs.MkGraph
import Goken.Proofs.MkMatch
import Goken.Proofs.MkRules
import Goken.Proofs.MkArcs
import Goken.Lib.UndoLog
import Goken.Dcl
import Goken.Proofs.Dcl
import Goken.Proofs.DclFrame
import Goken.Proofs.DclRun
import Goken.Vlrt
import Goken.Proofs.Vlrt
import Goken.Const
import Goken.Div8
import Goken.Lib.Reciprocal
import Goken.Proofs.Div8
import Goken.Proofs.Div8Signed
import Goken.Mul8
import Goken.Proofs.Mul8
import Goken.Mul5
import Goken.Proofs.Mul5
import Goken.Proofs.Mul5Code
import Goken.Proofs.Mul5Hints
import Goken.Proofs.Mul5Run
import Goken.Lib.ShiftMask
import Goken.Node
import Goken.Proofs.Shift
import Goken.Scon
import Goken.Lib.Words
import Goken.Proofs.Evconst
import Goken.Com
import Goken.Proofs.Relcon
import Goken.Proofs.CcomFolds
import Goken.Proofs.Ccom
import Goken.Bitfield
import Goken.Proofs.Bitfield
import Goken.Immrot
import Goken.Proofs.Immrot
import Goken.Lex
import Goken.Proofs.Lex
import Goken.Dodata
import Goken.Proofs.Dodata
import Goken.Patch
import Goken.Proofs.Patch
import Goken.Regexec
import Goken.Proofs.Regexec
import Goken.Regcomp
import Goken.Proofs.RegexecBounds
import Goken.Lib.Grouped
import Goken.Oplook
import Goken.Proofs.Oplook
import Goken.Mac
import Goken.Proofs.MacBody
import Goken.Proofs.MacArgs
import Goken.Proofs.Mac
import Goken.Lib.Threads
import Goken.Rregexec
import Goken.Proofs.RegexecThreads
import Goken.Proofs.RegexecSearch
import Goken.Lib.Halting
import Goken.Proofs.Regcomp
import Goken.Proofs.RegexecText
import Goken.Proofs.RegexecEnds
import Goken.Proofs.RegcompChains
import Goken.Proofs.RegexecAgree
import Goken.Lib.Linked
import Goken.MkRecipe
import Goken.Proofs.MkRecipe
import Goken.Proofs.MkTemplate
import Goken.MkVarsub
import Goken.Proofs.MkVarsub
import Goken.FmtQuote
import Goken.Proofs.FmtQuote
import Goken.Tokenize
import Goken.Proofs.Tokenize
import Goken.Lib.Spans
import Goken.Proofs.QuoteTokens
import Goken.Lib.Chains
import Goken.Proofs.Cclass
import Goken.MkSymtab
import Goken.MkVacuous
import Goken.Proofs.MkSymtab
import Goken.Cleanname
import Goken.Lib.Paths
import Goken.Proofs.MkVacuous
import Goken.Strtoll
import Goken.Ctime
import Goken.Proofs.Cleanname
import Goken.Proofs.Ctime
import Goken.Proofs.Strtoll
import Goken.Pcline
import Goken.Lib.Track
import Goken.Proofs.Pcline
import Goken.Qsort
import Goken.Findsym
import Goken.Proofs.Qsort
import Goken.Fline
import Goken.Proofs.Findsym
import Goken.Proofs.Fline
import Goken.Readobj
import Goken.Proofs.Readobj
import Goken.Lib.Nesting
import Goken.Scopes
import Goken.Proofs.Scopes
import Goken.Lib.Slots
import Goken.Syminit
import Goken.Proofs.Syminit
import Goken.Proofs.Buildtbls
import Goken.Lib.Blocks
import Goken.QsortBytes
import Goken.Proofs.QsortBytes
import Goken.Deflate
import Goken.Proofs.Lzmatch
import Goken.Proofs.Lzparse
import Goken.Proofs.Lzcomp
import Goken.Proofs.Deflate
import Goken.Lib.PackageMerge
import Goken.Precode
import Goken.Lib.PrefixCode
import Goken.Proofs.Nextchain
import Goken.Proofs.Precode
import Goken.Proofs.Gzprecode
import Goken.Lib.Readers
import Goken.WasmLink
import Goken.Lib.Wasm
import Goken.Proofs.Wasmcode
import Goken.Proofs.WasmLink
