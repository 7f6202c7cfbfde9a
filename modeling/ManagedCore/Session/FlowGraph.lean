import ManagedCore.Compile.FlowGraph
import ManagedCore.Report

/-!
# Showing flow graphs
-/

namespace ManagedCore

namespace FlowGraph

def lastListed : Nat := 64

def nodeReport (n : Node) : Report :=
  .list [.nat n.instr.pc, .opt .nat n.block, .opt .nat n.region, .bool n.handlerEntry]

def regionReport (r : Region) : Report := .list [.nats r.rows, .nat r.dispatch, .nat r.exception]

def offsetReport (g : FlowGraph) (pc : Nat) : Report :=
  .list [.opt .nat (g.indexOf? pc), .opt .nat (g.blockAt? pc),
    .opt (fun r => .nat r.dispatch) (g.regionAt? pc), .opt .nat (g.returnTag? pc)]

def report (code : Code) : Report :=
  let f : Function :=
    { name := "T.f()V", params := [], result := none, maxLocals := code.maxLocals }
  match ofCode code f with
  | .error e => .error ("Compile." ++ e.kind) e.message
  | .ok (g, f) =>
    .record
      [("starts", .nats g.starts), ("opinfo", .all nodeReport g.nodes),
        ("regions", .all regionReport g.regions), ("return_sites", .nats g.returnSites),
        ("blocks", .nat f.blocks.size), ("next_reg", .nat f.regTypes.size),
        ("by_pc", .all g.offsetReport (List.range (min code.bytes.length lastListed + 1)))]

end FlowGraph

end ManagedCore
