import ManagedCore.Compile.Body
import ManagedCore.Ir.Liveness
import ManagedCore.Lowered.Basic

/-!
# Compiling methods
-/

namespace ManagedCore

structure Compiled where
  function : Function
  stackMaps : StackMaps
  /-- Lowered code, for a function of numbers only. -/
  native : Option Lowered
  stats : CompileStats
  mode : CompileMode
  sites : List CallSite

/-- Compiles a method. The registry may gain array classes, and pool entries of the class are
marked as bound, also when the method cannot be compiled. -/
def compile (config : Config) (registry : Registry) (m : Method) :
    Except CompileError Compiled × Registry :=
  match m.code with
  | none => (.error (.noCode m.text), registry)
  | some code =>
    let function : Function :=
      { name := m.text
        params := m.paramTypes
        result := m.signature.resultType
        maxLocals := code.maxLocals }
    match (Emit.method m code).run { config, registry, function } with
    | .error e s => (.error e, s.registry)
    | .ok () s =>
      let f := s.function
      let stackMaps := f.stackMaps
      let native := if config.nativeBackend ∧ f.isNumeric then f.lower.toOption else none
      let stats := { s.stats with
        blocks := f.blocks.size, instrs := f.instrCount, gcPoints := stackMaps.count }
      (.ok { function := f, stackMaps, native, stats, mode := config.compileMode
             sites := s.sites }, s.registry)

end ManagedCore
