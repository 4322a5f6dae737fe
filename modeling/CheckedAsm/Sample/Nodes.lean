import CheckedAsm.Program
/-! # Nodes

A program seen as a tree: definitions and routines, in a routine its locals and its body, and in a
body the instructions, of which some have bodies of their own. -/

namespace CheckedAsm

mutual

/-- An instruction and all below it, as reports write them. -/
def Instr.nodes : Instr → List String
  | .op l o => [(Instr.op l o).describe]
  | .reset l p o => [(Instr.reset l p o).describe]
  | .call l t => [(Instr.call l t).describe]
  | .goto l t => [(Instr.goto l t).describe]
  | .ifThen l s i yes => (Instr.ifThen l s i yes).describe :: yes.describe :: yes.inner
  | .ifElse l s i yes no =>
    (Instr.ifElse l s i yes no).describe :: yes.describe :: yes.inner ++ no.describe :: no.inner
  | .loop l s i body => (Instr.loop l s i body).describe :: body.describe :: body.inner
  | .count l d dir f body =>
    (Instr.count l d dir f body).describe :: body.describe :: body.inner
  | .interruptsOff l body => (Instr.interruptsOff l body).describe :: body.describe :: body.inner
  | .save l ls body => (Instr.save l ls body).describe :: body.describe :: body.inner
  | .pointInto l p t body =>
    (Instr.pointInto l p t body).describe :: body.describe :: body.inner

/-- All below a block. -/
def Block.inner : Block → List String
  | .nil _ => []
  | .cons head tail => head.nodes ++ tail.inner

end

/-- A routine and all below it. -/
def Routine.nodes (r : Routine) : List String :=
  r.describe :: r.locals.map Defn.describe ++ match r.body with
    | none => []
    | some b => b.describe :: b.inner

/-- All below a program. -/
def Program.nodes (p : Program) : List String :=
  p.defns.map Defn.describe ++ p.routines.flatMap Routine.nodes

end CheckedAsm
