import ManagedCore.Compile.Error
import ManagedCore.Config
import ManagedCore.Heap.Basic
import ManagedCore.Thread.Rendezvous

/-!
# Failures of the engine

Exceptions of running code are objects; what stands here are failures of the engine itself, which no
handler catches. A failure of one part keeps the name and the text that the part gives it.
-/

namespace ManagedCore

inductive EngineError where
  | classNotFound (name : String)
  | methodNotFound (name : String)
  | fieldSlot (cls : String) (slot : Nat)
  | notAnInstance (cls : String)
  | notAnArray (cls : String)
  | arrayIndex (index : Nat)
  | typeMismatch (what : String)
  | abstractMethod (method : String)
  | notAttached (t : ThreadId)
  | notInNative (t : ThreadId)
  | link (e : LinkError)
  | compile (e : CompileError)
  | monitor (e : MonitorError)
  | rendezvous (e : RendezvousTimeout)
  | alloc (e : AllocError)
  | config (e : ConfigError)
  | internal (what : String)
deriving DecidableEq, Repr

namespace EngineError

def kind : EngineError → String
  | classNotFound _ => "Vm.ClassNotFound"
  | methodNotFound _ => "Vm.MethodNotFound"
  | fieldSlot _ _ => "Vm.FieldSlot"
  | notAnInstance _ => "Vm.NotAnInstance"
  | notAnArray _ => "Vm.NotAnArray"
  | arrayIndex _ => "Vm.ArrayIndex"
  | typeMismatch _ => "Vm.TypeMismatch"
  | abstractMethod _ => "Vm.AbstractMethod"
  | notAttached _ => "Vm.NotAttached"
  | notInNative _ => "Vm.NotInNative"
  | link e => "Link." ++ e.kind
  | compile e => "Compile." ++ e.kind
  | monitor e => "Monitor." ++ e.kind
  | rendezvous _ => "Rendezvous.Timeout"
  | alloc _ => "Alloc.OutOfMemory"
  | config e => "Config." ++ e.kind
  | internal _ => "Vm.Internal"

def message : EngineError → String
  | classNotFound n => s!"class not found: {n}"
  | methodNotFound n => s!"method not found: {n}"
  | fieldSlot c slot => s!"field slot {slot} out of range for {c}"
  | notAnInstance c => s!"{c} is not an instance object"
  | notAnArray c => s!"{c} is not an array"
  | arrayIndex i => s!"array index {i} out of range"
  | typeMismatch what => s!"type mismatch: {what}"
  | abstractMethod m => s!"abstract method called: {m}"
  | notAttached t => s!"thread {t} is not attached"
  | notInNative t => s!"thread {t} is not running a native method"
  | link e => e.message
  | compile e => e.message
  | monitor e => e.message
  | rendezvous e => e.message
  | alloc e => e.message
  | config e => e.message
  | internal what => s!"internal error: {what}"

end EngineError

end ManagedCore
