import RtlCores.Lib.Bits
import RtlCores.Lib.ByteStore
import RtlCores.Lib.Bytes
import RtlCores.Lib.Chains
import RtlCores.Lib.Clocked
import RtlCores.Lib.Exchange
import RtlCores.Lib.Fields
import RtlCores.Lib.HexFile
import RtlCores.Lib.Isa
import RtlCores.Lib.IsaWord
import RtlCores.Lib.Machine
import RtlCores.Lib.Matching
import RtlCores.Lib.Phases
import RtlCores.Lib.Program
import RtlCores.Lib.Queue
import RtlCores.Lib.RingBuffer
import RtlCores.Lib.Ripple
import RtlCores.Lib.Segments
import RtlCores.Lib.Serial
import RtlCores.Lib.ShiftChain
import RtlCores.Lib.Staged
import RtlCores.Lib.Widened
import RtlCores.Lib.WordCounter
import RtlCores.Lib.Zicsr
import RtlCores.Modules.Adder
import RtlCores.Modules.AdderLoop
import RtlCores.Modules.ClockDivider
import RtlCores.Modules.Counter
import RtlCores.Modules.Fifo
import RtlCores.Modules.Memory
import RtlCores.Modules.MemoryBounds
import RtlCores.Modules.MemoryRuns
import RtlCores.Modules.Sequence
import RtlCores.Modules.Sequence1010
import RtlCores.Modules.Shift
import RtlCores.Modules.ShiftReg
import RtlCores.Modules.ShiftRegRuns
import RtlCores.Riscv.Alignment
import RtlCores.Riscv.Alu
import RtlCores.Riscv.BaseIsa
import RtlCores.Riscv.BubbleSort
import RtlCores.Riscv.Clint
import RtlCores.Riscv.Control
import RtlCores.Riscv.Core
import RtlCores.Riscv.Csr
import RtlCores.Riscv.Cycle
import RtlCores.Riscv.Datapath
import RtlCores.Riscv.Decode
import RtlCores.Riscv.Execution
import RtlCores.Riscv.Formats
import RtlCores.Riscv.Generator
import RtlCores.Riscv.Halt
import RtlCores.Riscv.Interface
import RtlCores.Riscv.Jalr
import RtlCores.Riscv.Legality
import RtlCores.Riscv.Patterns
import RtlCores.Riscv.Pending
import RtlCores.Riscv.Pkg
import RtlCores.Riscv.Programs
import RtlCores.Riscv.Refinement
import RtlCores.Riscv.Reset
import RtlCores.Riscv.Resume
import RtlCores.Riscv.Run
import RtlCores.Riscv.Sequencer
import RtlCores.Riscv.Sequences
import RtlCores.Riscv.Top
import RtlCores.Riscv.Trap
import RtlCores.Riscv.TrapRuns
import RtlCores.Riscv.Words
import RtlCores.Riscv.Zicsr
import RtlCores.Spi.DaisyChain
import RtlCores.Spi.Loopback
import RtlCores.Spi.LoopbackHalves
import RtlCores.Spi.LoopbackPeriods
import RtlCores.Spi.Slave
import RtlCores.Spi.Top
import RtlCores.Uart.DataReady
import RtlCores.Uart.DivisorLatch
import RtlCores.Uart.Driver
import RtlCores.Uart.DriverCalls
import RtlCores.Uart.ErrorFlags
import RtlCores.Uart.FifoClear
import RtlCores.Uart.Flush
import RtlCores.Uart.Loopback
import RtlCores.Uart.LoopbackCore
import RtlCores.Uart.LoopbackRest
import RtlCores.Uart.LoopbackRuns
import RtlCores.Uart.Overrun
import RtlCores.Uart.Polling
import RtlCores.Uart.Regmap
import RtlCores.Uart.Rx
import RtlCores.Uart.RxBits
import RtlCores.Uart.RxDecode
import RtlCores.Uart.RxFrames
import RtlCores.Uart.RxNoise
import RtlCores.Uart.RxSync
import RtlCores.Uart.SessionReceives
import RtlCores.Uart.SessionSends
import RtlCores.Uart.Sessions
import RtlCores.Uart.Ticks
import RtlCores.Uart.Top
import RtlCores.Uart.TopPeriod
import RtlCores.Uart.Tx
import RtlCores.Uart.TxFrames
import RtlCores.Uart.TxPhases
import RtlCores.Uart.UartUut
