import ManagedCore.Config.Document
import ManagedCore.Session.Chain
import ManagedCore.Session.Command
import ManagedCore.Session.FlowGraph
import ManagedCore.Session.Frames
import ManagedCore.Session.Lowered
import ManagedCore.Proofs.Compile.Meaning
import ManagedCore.Proofs.Rendezvous.Stopped
import ManagedCore.Proofs.Rendezvous.Accounting
import ManagedCore.Proofs.Monitor.Refinement
import ManagedCore.Proofs.Compile.Polling
import ManagedCore.Proofs.Machine.Handling
import ManagedCore.Proofs.Class.Overrides
import ManagedCore.Proofs.Machine.Receivers
import ManagedCore.Proofs.Class.Subtypes
import ManagedCore.Proofs.InlineCache.Threads
import ManagedCore.Proofs.Ir.Liveness
import ManagedCore.Proofs.Compile.Exploration
import ManagedCore.Proofs.Heap.Reachability
import ManagedCore.Proofs.Compile.Shuffles
import ManagedCore.Proofs.Compile.Nesting
import ManagedCore.Proofs.Thread.Buffers
import ManagedCore.Proofs.Thread.Walking
import ManagedCore.Proofs.Thread.Links
import ManagedCore.Proofs.Bytecode.Constants
import ManagedCore.Proofs.Machine.Arrays
