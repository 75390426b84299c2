import Microrev.Harness.Reuse
import Microrev.Harness.Pinning
import Microrev.Bench.Handshake
import Microrev.Bench.Flags
import Microrev.Bench.Samples
import Microrev.Bench.Average
import Microrev.Bench.Bounds
import Microrev.Bench.Assertion
import Microrev.Bench.EventSet
import Microrev.Bench.LineSize
import Microrev.Bench.Pmc
import Microrev.Ring.Uniform
import Microrev.Ring.Latency
import Microrev.Ring.Sequential
import Microrev.Ring.InPlace
import Microrev.Log.Protocols
import Microrev.Log.ProducerConsumer
import Microrev.Log.Labelled
import Microrev.Log.CyclesText
import Microrev.Log.Tables
import Microrev.Log.Config
import Microrev.Programs.Protocols
import Microrev.Programs.ProducerConsumer
import Microrev.Programs.Flush
import Microrev.Programs.Measurement
import Microrev.Log.OneFile
import Microrev.Programs.Cacheline
import Microrev.Programs.RdLatency
import Microrev.Programs.Standalone
import Microrev.Programs.SharedLog
