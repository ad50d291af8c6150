import EchoServer.Lib.Machine
import EchoServer.Lib.Blocks
import EchoServer.Lib.Thread
import EchoServer.Lib.Session
import EchoServer.Lib.Duplex
import EchoServer.Lib.Loop
import EchoServer.Lib.Bump
import EchoServer.Lib.Semaphore
import EchoServer.Lib.Caller
import EchoServer.Lib.Process
import EchoServer.Lib.Utf8
import EchoServer.Lib.Decimal
import EchoServer.Lib.Redis
import EchoServer.Lib.Tally
import EchoServer.Lib.Congruential
import EchoServer.Lib.Rounding
import EchoServer.Common
import EchoServer.Sharded.Model
import EchoServer.Sharded.Steps
import EchoServer.Sharded.Queues
import EchoServer.Sharded.Ownership
import EchoServer.Sharded.Records
import EchoServer.Sharded.Phases
import EchoServer.Sharded.Echo
import EchoServer.Sharded.Capacity
import EchoServer.Sharded.Abort
import EchoServer.Threaded.Wire
import EchoServer.Threaded.Simple
import EchoServer.Threaded.Uring
import EchoServer.Threaded.Uring2
import EchoServer.Threaded.Equivalence
import EchoServer.Threaded.Survival
import EchoServer.Threaded.Completion
import EchoServer.EndToEnd.Client
import EchoServer.EndToEnd.Agreement
import EchoServer.Epoll.Model
import EchoServer.Epoll.Steps
import EchoServer.Epoll.Isolation
import EchoServer.Epoll.Segmentation
import EchoServer.Epoll.Handshake
import EchoServer.Nic.ReceiveRing
import EchoServer.Nic.Capability
import EchoServer.Nic.Dma
import EchoServer.Nic.Memory
import EchoServer.Nic.AdminQueue
import EchoServer.Nic.I10e
import EchoServer.Nic.I10eSteps
import EchoServer.Nic.I10eMain
import EchoServer.Bench.Fill
import EchoServer.Bench.Model
import EchoServer.Bench.Barrier
import EchoServer.Bench.Runtime
import EchoServer.Go.Server
import EchoServer.Go.Client
import EchoServer.Go.Handshake
import EchoServer.Go.Segmentation
import EchoServer.Go.Process
import EchoServer.Go.Bench
import EchoServer.Bench.Division
import EchoServer.Bench.Generator
import EchoServer.Bench.Connect
import EchoServer.Bench.Total
import EchoServer.Lib.Justice
import EchoServer.Bench.Progress
import EchoServer.Go.Progress
import EchoServer.Multiclient.Progress
import EchoServer.Multiclient.System
import EchoServer.Multiclient.Model
import EchoServer.Multiclient.Coordination
import EchoServer.Multiclient.Throughput
import EchoServer.Multiclient.Independence
import EchoServer.Multiclient.Start
import EchoServer.Pi.Series
import EchoServer.Sharded.Progress
import EchoServer.Sharded.Framing
import EchoServer.Multiclient.SystemProgress
