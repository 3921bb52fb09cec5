import RatScript.Code.Program

/-!
Program listings: every function with its instructions, operands explained and jump targets marked.
-/

namespace RatScript

namespace Program

def describeConstant (p : Program) (chunk : Chunk) (index : UInt8) : String :=
  match chunk.constant? index with
  | some (.number value) => value.text
  | some (.text content) => Text.quote content
  | some (.runnable function) =>
    match p.function? function with
    | some f => "<Runnable '"++f.name++"'>"
    | none => "<missing function "++toString function++">"
  | none => "<out of range>"

/-- Mnemonic, operand byte and what it stands for. -/
def operandLine (op : Opcode) (operand : UInt8) (meaning : String) : String :=
  Text.padRight 24 op.mnemonic++" "++Text.padLeft ' ' 3 (toString operand)++"    ; "++meaning

def jumpLine (i : Instruction) (distance : UInt16) (sign arrow : String) : String :=
  let target := match i.target? with
    | some t => Text.zeroPadded 4 t
    | none => "????"
  Text.padRight 24 i.op.mnemonic++" "++sign++toString distance++" "++arrow++" (→ "++target++")"

def instructionLine (p : Program) (f : Function) (i : Instruction) : String :=
  match i.operand with
  | .none => i.op.mnemonic
  | .constant index => operandLine i.op index (p.describeConstant f.chunk index)
  | .slot slot => operandLine i.op slot (f.locals[slot.toNat]?.getD "?")
  | .jump distance => jumpLine i distance "+" "↓"
  | .loop distance => jumpLine i distance "-" "↑"
  | .runnable index lines =>
    operandLine i.op index (p.describeConstant f.chunk index++" ("++toString lines++" lines)")
  | .native index arguments =>
    operandLine i.op index (p.describeConstant f.chunk index++" ("++toString arguments++" args)")

def targetRule : String := "      ┌──────────────────────────────────\n"

def markedLine (p : Program) (f : Function) (targets : Array Nat) (i : Instruction) : String :=
  let line := p.instructionLine f i++"\n"
  if targets.contains i.offset then
    targetRule++Text.zeroPadded 4 i.offset++" ► "++line
  else Text.zeroPadded 4 i.offset++"   "++line

def titleRule : String := "════════════════════════════════════════\n"

def title (f : Function) : String :=
  if f.isScript then f.name else "runnable "++f.name++"/"++toString f.arity

def functionListing (p : Program) (f : Function) : String :=
  let (instructions, fault) := f.chunk.decode
  let targets := instructions.filterMap (·.target?)
  let counts := " "++toString f.chunk.code.size++" bytes, "++
    toString f.chunk.constants.size++" constants\n"
  let lines := instructions.foldl (fun text i => text++p.markedLine f targets i) ""
  let bad := match fault with
    | some fault => "       <"++fault.message++">\n"
    | none => ""
  titleRule++" "++title f++"\n"++counts++titleRule++lines++bad++"\n"

def listing (p : Program) : String :=
  p.functions.foldl (fun text f => text++p.functionListing f) "=== BYTECODE PROGRAM ===\n\n"

end Program
end RatScript
