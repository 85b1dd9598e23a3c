import Potimizer.UnicodeCodec
import Potimizer.LoopMachine
import Potimizer.CheckedMemory
import Potimizer.LaneRegisters
import Potimizer.ScalarConverter
import Potimizer.VectorConverter
import Potimizer.ConverterAgreement
import Potimizer.LatinScanner
import Potimizer.AggregatorMachine
import Potimizer.AggregatorThreads
import Potimizer.AggregatorLifecycle
import Potimizer.AggregatorDelivery
import Potimizer.AggregatorCoalescing
import Potimizer.AggregatorLoad
import Potimizer.ByteOrder
import Potimizer.ShareMemoryForCpp
import Potimizer.CrashRecovery
import Potimizer.ScalarRoundTrip
import Potimizer.RiscvScanner
import Potimizer.SharedMemoryLog
import Potimizer.SharedMemoryBounds
import Potimizer.AggregatorSnapshots
import Potimizer.AggregatorFailure
import Potimizer.SharedMemoryExample
import Potimizer.StoredPointerLog
import Potimizer.ConcurrentLog
import Potimizer.RandomText
import Potimizer.MappedLog
import Potimizer.MappedRecovery
import Potimizer.AggregatorProgress
import Potimizer.AggregatorAccounts
import Potimizer.AggregatorAnswers
import Potimizer.BoundedLog
import Potimizer.MappedJournal
import Potimizer.SharedMemoryProcess
import Potimizer.SharedPointerFile
import Potimizer.ConverterOrder
import Potimizer.ConverterChunks
import Potimizer.RandomLatin
import Potimizer.RandomRange
import Potimizer.ScannerReads
import Potimizer.ConverterHeads
import Potimizer.AggregatorReentry
