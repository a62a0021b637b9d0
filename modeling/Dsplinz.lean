import Dsplinz.Lib.BigEndian
import Dsplinz.Lib.GoSlice
import Dsplinz.Rlp.Item
import Dsplinz.Rlp.Encbuf
import Dsplinz.Rlp.EncbufSpec
import Dsplinz.Rlp.Output
import Dsplinz.Lib.ExceptState
import Dsplinz.Rlp.Stream
import Dsplinz.Rlp.StreamBounds
import Dsplinz.Rlp.StreamSpec
import Dsplinz.Rlp.RoundTrip
import Dsplinz.Lib.Walk
import Dsplinz.Lib.ByteBitmap
import Dsplinz.Lib.GoBig
import Dsplinz.Vm.OpCodes
import Dsplinz.Vm.Analysis
import Dsplinz.Lib.PanicState
import Dsplinz.Common.Basic
import Dsplinz.Params
import Dsplinz.Vm.Machine
import Dsplinz.Vm.MemoryTable
import Dsplinz.Bitutil.Compress
import Dsplinz.Lib.GoSort
import Dsplinz.P2p.Enr
import Dsplinz.Lib.UndoLog
import Dsplinz.State.StateDB
import Dsplinz.State.View
import Dsplinz.State.Journal
import Dsplinz.State.Snapshot
import Dsplinz.Core.HeaderChain
import Dsplinz.Core.Canonical
import Dsplinz.P2p.Table
import Dsplinz.P2p.TableSpec
import Dsplinz.Vm.Instructions
import Dsplinz.Lib.TwosComplement
import Dsplinz.Vm.InstructionsSpec
import Dsplinz.Vm.MemoryGas
import Dsplinz.Rlp.Integers
import Dsplinz.Rlp.Raw
import Dsplinz.Rlp.RawSpec
import Dsplinz.Lib.GoHeap
import Dsplinz.Core.TxList
import Dsplinz.Lib.KeySorted
import Dsplinz.Core.TxSortedMapSpec
import Dsplinz.Core.TxListSpec
import Dsplinz.Lib.GoStrconv
import Dsplinz.Common.Hexutil
import Dsplinz.Common.HexutilSpec
import Dsplinz.Asm.Lexer
import Dsplinz.Asm.Compiler
import Dsplinz.Asm.CompilerSpec
import Dsplinz.Asm.Iterator
import Dsplinz.Core.PriceAndNonce
import Dsplinz.Core.Signing
import Dsplinz.P2p.EnrSpec
import Dsplinz.P2p.Protocols
import Dsplinz.Whisper.Message
import Dsplinz.Lib.TopK
import Dsplinz.P2p.TableRead
import Dsplinz.Les.Flowcontrol
import Dsplinz.Lib.WeightedPick
import Dsplinz.Lib.Blocks
import Dsplinz.Les.RandSelect
import Dsplinz.Les.WeightedRandomSelect
import Dsplinz.State.Dirties
import Dsplinz.Core.StateTransition
import Dsplinz.Miner.Worker
import Dsplinz.Lib.GoMap
import Dsplinz.Dsp.Fetcher
import Dsplinz.Dsp.FetcherCounters
import Dsplinz.Lib.Keystream
import Dsplinz.P2p.Rlpx
import Dsplinz.P2p.RlpxSpec
import Dsplinz.Abi.Type
import Dsplinz.Lib.Returns
import Dsplinz.Abi.Unpack
import Dsplinz.Abi.UnpackSpec
import Dsplinz.Lib.BitMask
import Dsplinz.Core.Bloom
import Dsplinz.Dsp.Filter
import Dsplinz.Dsp.FilterSpec
import Dsplinz.Lib.Sections
import Dsplinz.Bitutil.Bytes
import Dsplinz.Core.BloomBits
import Dsplinz.Core.BloomBitsSpec
import Dsplinz.Core.ChainIndexer
import Dsplinz.Dsp.BloomIndexer
import Dsplinz.Dsp.BloomIndexerSpec
import Dsplinz.State.Commit
