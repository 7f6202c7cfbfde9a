import ManagedCore.Fault
import ManagedCore.Report

/-!
# Native methods

A native method is either one of the built-in methods of the core classes or a script: a list of
actions on the calling thread that ends by returning, throwing or failing.
-/

namespace ManagedCore

inductive Builtin where
  | nothing
  | identityHash
  | stringLength
  | setMessage
  | getMessage
deriving DecidableEq, Repr

inductive Source where
  | argument (index : Nat)
  | last
  | value (v : Value)
  | text (s : String)
  | named (name : String)
deriving DecidableEq

/-- What a script can write to the log of the thread it runs on. -/
inductive Observation where
  | arguments
  | frames
  | managedFrames
  | chain
  | roots
  | stackRoots
  | state
  | method
  | pool (index : Nat)
deriving DecidableEq, Repr

inductive ExceptionSource where
  | fresh (fault : Fault) (message : Option String)
  | given (source : Source)
deriving DecidableEq

inductive Action where
  | say (what : Report)
  | log (what : Observation)
  | raise (e : ExceptionSource)
  | throw (e : ExceptionSource)
  | fatal (text : String)
  | intern (text : String)
  | call (owner name descriptor : String) (args : List Source) (catches : Bool)
  | monitorEnter (obj : Source)
  | monitorExit (obj : Source)
  | getField (obj : Source) (slot : Nat)
  | setField (obj : Source) (slot : Nat) (value : Source)
  | result (value : Source)
  | resultNone

inductive Native where
  | builtin (b : Builtin)
  | script (actions : List Action)

end ManagedCore
