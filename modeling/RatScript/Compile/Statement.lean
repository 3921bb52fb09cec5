import RatScript.Compile.Expression

/-!
Statements to code. A statement that fails is reported and the rest of its line skipped; blocks
hold statements one level deeper.
-/

namespace RatScript.Compile

/-- Most locals in scope, as many as one byte can name. -/
def maxLocals : Nat := 256

def addLocal (name : Option String) (t : Located) : Compile Unit := do
  if (← get).locals.length < maxLocals then
    modify fun b =>
      {b.modifyFunction b.current fun f => {f with locals := f.locals.push (name.getD "(repeat)")}
        with locals := ⟨name, b.depth⟩ :: b.locals}
  else complain t .tooManyLocals

def beginScope : Compile Unit := modify fun b => {b with depth := b.depth+1}

/-- Closes a scope; its locals leave the stack. -/
def endScope : Compile Unit := do
  let b ← get
  let (kept, n) := Builder.leave (b.depth-1) b.locals
  set {b with depth := b.depth-1, locals := kept}
  emitBytes (List.replicate n Opcode.pop.toByte)

/-- The tokens behind the next end of line, and the last token before them. -/
def skipLine (last : Located) : List Located → Located × List Located
  | [] => (last, [])
  | t :: rest => if t.token == .newline then (t, rest) else skipLine t rest

def synchronize : Compile Unit :=
  modify fun b =>
    let (last, rest) := skipLine b.last b.rest
    {b with last := last, rest := rest}

/-- A statement of a block or script: reported, if it fails, and passed over. -/
def declaration (statement : Compile Unit) : Compile Unit :=
  tryCatch statement fun d => do
    modify fun b => {b with diagnostics := b.diagnostics.push d}
    synchronize

/-- Statements up to one of the closers or the end; each takes a token, so `budget` bounds their
number. -/
def declarations (statement : Compile Unit) (closers : List Keyword) :
    (budget : List Located) → Compile Unit
  | [] => return
  | _ :: budget => do
    match (← peek).token with
    | .eof => return
    | .keyword k =>
      if closers.contains k then return
      else
        declaration statement
        declarations statement closers budget
    | _ =>
      declaration statement
      declarations statement closers budget

section
variable (expression : Compile Unit) (statement : Compile Unit)

/-- Statements of a block in a scope of their own. The last closer is the one to ask for. -/
def block (opener : Keyword) (closers : List Keyword) : Compile Unit := do
  beginScope
  declarations statement closers (← get).rest
  endScope
  if ← check .eof then
    complain (← peek) (.unclosed opener (closers.getLastD opener))

def header (what : String) : Compile Unit := consume (.symbol .colon) ("':' after "++what)

def expressionStatement : Compile Unit := do
  expression
  emit .pop
  endOfLine

/-- Whether a name is declared in the innermost scope. -/
def declaredHere (name : String) (b : Builder) : Bool :=
  (b.locals.takeWhile (·.depth == b.depth)).any (·.name == some name)

def varDeclaration : Compile Unit := do
  let name ← consumeName "variable name after 'rat'"
  let t ← last
  let isLocal := (← get).inRunnable
  if isLocal && declaredHere name (← get) then complain t (.redeclaredLocal name)
  if ← accept (.symbol .assign) then expression else emit (.literal none)
  if isLocal then addLocal (some name) t
  else emitWith .define (← textConstant name)
  endOfLine

def ifStatement : Compile Unit := do
  expression
  header "condition"
  endOfLine
  let toElse ← emitJump (.jumpIf false)
  emit .pop
  block statement .if_ [.else_, .endIf]
  let toEnd ← emitJump .jump
  patchJump toElse
  emit .pop
  if ← accept (.keyword .else_) then
    header "'else'"
    endOfLine
    block statement .else_ [.endIf]
  consume (.keyword .endIf) "'endif'"
  patchJump toEnd
  endOfLine

def whileStatement : Compile Unit := do
  let start ← offset
  expression
  header "condition"
  let toEnd ← emitJump (.jumpIf false)
  emit .pop
  endOfLine
  block statement .while_ [.endWhile]
  consume (.keyword .endWhile) "'endwhile'"
  emitLoop start
  patchJump toEnd
  emit .pop
  endOfLine

/-- Inside a runnable the counter lies where the next local would, so it takes a slot. -/
def repeatBody : Compile Unit := do
  if (← get).inRunnable then
    let t ← last
    beginScope
    addLocal none t
    try block statement .repeat_ [.endRepeat]
    finally modify fun b => {b with locals := b.locals.drop 1, depth := b.depth-1}
  else block statement .repeat_ [.endRepeat]

def repeatStatement : Compile Unit := do
  expression
  header "repeat count"
  emit .repeat_
  endOfLine
  let start ← offset
  repeatBody statement
  consume (.keyword .endRepeat) "'endrepeat'"
  emit .endRepeat
  emitLoop start
  endOfLine

def returnStatement : Compile Unit := do
  if !(← get).inRunnable then complain (← last) .returnFromScript
  if (← check .newline) || (← check .eof) then emit (.literal none) else expression
  emit .ret
  endOfLine

/-- Parameters with their places; each takes a token, so `budget` bounds their number. -/
def parameters : (budget : List Located) → Array (String × Located) →
    Compile (Array (String × Located))
  | [], found => return found
  | _ :: budget, found => do
    let name ← consumeName "parameter name"
    let t ← last
    if found.any (·.1 == name) then complain t (.duplicateParameter name)
    let found := found.push (name, t)
    if ← accept (.symbol .comma) then parameters budget found else return found

def parameterList : Compile (Array (String × Located)) := do
  consume (.symbol .leftParen) "'(' after runnable name"
  let found ← if ← check (.symbol .rightParen) then pure #[]
    else parameters ((← peek) :: (← get).rest) #[]
  consume (.symbol .rightParen) "')' after parameters"
  return found

def runnableBody (params : List (String × Located)) : Compile Unit := do
  params.forM fun (name, t) => addLocal (some name) t
  endOfLine
  declarations statement [.endRunnable] (← get).rest
  if ← check .eof then complain (← peek) (.unclosed .runnable .endRunnable)
  advance
  emit (.literal none)
  emit .ret

/-- Compiles the body of a function as the current one and goes back to where it was. -/
def inFunction (id : Nat) (body : Compile Unit) : Compile Unit := do
  let current := (← get).current
  let depth := (← get).depth
  let locals := (← get).locals
  modify fun b => {b with current := id, depth := 1, locals := []}
  try body
  finally modify fun b => {b with current := current, depth := depth, locals := locals}

def lineMarkers (chunk : Chunk) : Nat := chunk.instructions.countP (·.op == .newline)

def runnableDeclaration : Compile Unit := do
  if (← get).inRunnable then complain (← last) .nestedRunnable
  let name ← consumeName "runnable name"
  let t ← last
  if ((← get).runnable? name).isSome || (Native.ofName? name).isSome then
    complain t (.redeclaredRunnable name)
  let params ← parameterList
  header "runnable signature"
  let id := (← get).functions.size
  modify fun b => {b with functions := b.functions.push (.new name (some b.current) params.size)}
  inFunction id (runnableBody statement params.toList)
  let lines := match (← get).functions[id]? with
    | some f => lineMarkers f.chunk
    | none => 0
  match Word.ofNat? lines with
  | none => complain t .bodyTooLong
  | some lines =>
    modify (·.modifyFunction id fun f => {f with lineCount := lines})
    let index ← enter (·.addConstant (.runnable id))
    emitBytes [Opcode.defineRunnable.toByte, index, Word.high lines, Word.low lines]
    endOfLine

end

def statement (expression inner : Compile Unit) : Compile Unit := do
  let t ← peek
  match t.token with
  | .newline =>
    advance
    emit .newline
  | .keyword .declare =>
    advance
    varDeclaration expression
  | .keyword .runnable =>
    advance
    runnableDeclaration inner
  | .keyword .if_ =>
    advance
    ifStatement expression inner
  | .keyword .while_ =>
    advance
    whileStatement expression inner
  | .keyword .repeat_ =>
    advance
    repeatStatement expression inner
  | .keyword .return_ =>
    advance
    returnStatement expression
  | .keyword k => if k.closes then complain t (.strayCloser k) else expressionStatement expression
  | _ => expressionStatement expression

/-- A statement with so many levels of nesting left. -/
def statementAt : Nat → Compile Unit
  | 0 => tooDeep
  | levels+1 => statement (operandAt levels .assign) (statementAt levels)

def script : Compile Unit := do
  declarations (statementAt maxNesting) [] (← get).rest

end RatScript.Compile

namespace RatScript

/-- Compiles tokens; they end at the first end of file, or with the last of them. -/
def compileTokens (tokens : List Located) : Except (List Diagnostic) Program :=
  match Compile.script (.start tokens) with
  | .ok _ b | .error _ b =>
    if b.diagnostics.isEmpty then .ok ⟨b.functions⟩ else .error b.diagnostics.toList

def compile (source : String) : Except (List Diagnostic) Program :=
  match scanCode source with
  | .error e => .error [.ofScanError e]
  | .ok tokens => compileTokens tokens

end RatScript
