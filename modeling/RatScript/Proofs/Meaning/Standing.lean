import RatScript.Proofs.Meaning.Evaluation
import RatScript.Proofs.Meaning.Expression

/-!
The code of an expression without calls, wherever it stands: whatever else is in the chunk, on the
stack and on the heap, it computes what the expression means. Where an operator or a variable fails,
it does so before it has changed anything.
-/

namespace RatScript

open Stateful Machine
open Directive (size encode)

namespace Machine

/-- The innermost call at another place. -/
def goto (ip : Nat) (m : Machine) : Machine :=
  match m.frames with
  | f :: rest => {m with frames := {f with ip := ip} :: rest}
  | [] => m

theorem goto_of_frames {m : Machine} {id ip base : Nat} {rest : List Frame}
    (hframes : m.frames = ⟨id, ip, base⟩ :: rest) (ip' : Nat) :
    m.goto ip' = {m with frames := ⟨id, ip', base⟩ :: rest} := by
  simp only [goto, hframes]

theorem goto_goto (m : Machine) (ip ip' : Nat) : (m.goto ip).goto ip' = m.goto ip' := by
  cases hframes : m.frames with
  | nil => simp only [goto, hframes]
  | cons f rest => simp only [goto, hframes]

/-- Nothing but the pointer of the innermost call has moved. -/
def Moved (m m' : Machine) : Prop := m' = m ∨ ∃ ip, m' = m.goto ip

instance : Std.Refl Moved := ⟨fun _ => .inl rfl⟩

instance : Trans Moved Moved Moved where
  trans h k := by
    rcases h with rfl | ⟨ip, rfl⟩
    · exact k
    · rcases k with rfl | ⟨ip', rfl⟩
      · exact .inr ⟨ip, rfl⟩
      · exact .inr ⟨ip', goto_goto _ ip ip'⟩

end Machine

namespace Exec

variable {α β : Type}

instance (ip : Nat) : Keeps Moved (setIp ip) := Keeps.modify fun _ => .inr ⟨ip, rfl⟩

/-- A part that does not fail for what its operands are. -/
class Unjudging (x : Exec α) : Prop where
  unjudging : Yields (fun _ => True) x (fun _ _ => True) fun e _ => e.isJudgement = false

namespace Unjudging

theorem of_error {x : Exec α} [h : Unjudging x] {m t : Machine} {e : Fault} (hx : x m = .error e t) :
    e.isJudgement = false := by
  have hyields := h.unjudging m trivial
  rwa [hx] at hyields

theorem bind {x : Exec α} {f : α → Exec β} (hx : Unjudging x) (hf : ∀ a, Unjudging (f a)) :
    Unjudging (x >>= f) :=
  ⟨Yields.bind hx.unjudging fun a => (hf a).unjudging⟩

theorem throw {e : Fault} (he : e.isJudgement = false) : Unjudging (throw e : Exec α) :=
  ⟨Yields.throw fun _ _ => he⟩

instance (a : α) : Unjudging (pure a) := ⟨fun _ _ => trivial⟩

instance : Unjudging (get : Exec Machine) := ⟨fun _ _ => trivial⟩

instance (f : Machine → Machine) : Unjudging (modify f) := ⟨fun _ _ => trivial⟩

instance (x : Exec α) (f : α → Exec β) [Unjudging x] [∀ a, Unjudging (f a)] :
    Unjudging (x >>= f) := bind inferInstance inferInstance

instance (x : HeapM α) : Unjudging (onHeap x) where
  unjudging m _ := by
    cases hx : x m.heap with
    | ok a k =>
      rw [onHeap_ok hx]
      trivial
    | error f k =>
      rw [onHeap_error hx]
      rfl

instance (v : Value) : Unjudging (retain v) := inferInstanceAs (Unjudging (onHeap _))

instance (v : Value) : Unjudging (release v) := inferInstanceAs (Unjudging (onHeap _))

instance (v : Value) : Unjudging (push v) := by
  refine bind inferInstance fun m => ?_
  split
  · infer_instance
  · exact throw rfl

instance : Unjudging pop := by
  refine bind inferInstance fun m => ?_
  split
  · exact throw rfl
  · infer_instance

instance (v : Value) : Unjudging (replaceTop v) := by
  unfold replaceTop
  infer_instance

instance (content : String) : Unjudging (newText content) := by
  unfold newText
  infer_instance

instance (name : String) (v : Value) : Unjudging (storeGlobal name v) := by
  refine bind inferInstance fun _ => bind inferInstance fun m => ?_
  split <;> infer_instance

instance : Unjudging frame := by
  refine bind inferInstance fun m => ?_
  split
  · infer_instance
  · exact throw rfl

instance (slot : UInt8) : Unjudging (cell slot) := by
  refine bind inferInstance fun f => bind inferInstance fun m => ?_
  split
  · infer_instance
  · exact throw rfl

instance (slot : UInt8) : Unjudging (loadLocal slot) := by
  refine bind inferInstance fun index => bind inferInstance fun m => ?_
  split
  · infer_instance
  · exact throw rfl

instance (slot : UInt8) (v : Value) : Unjudging (storeLocal slot v) := by
  unfold storeLocal
  infer_instance

end Unjudging

/-- A part that changes nothing where it fails for what its operands are. -/
class Clean (x : Exec α) : Prop where
  clean : ∀ m e t, x m = .error e t → e.isJudgement = true → Moved m t

namespace Clean

instance (priority := low) (x : Exec α) [h : Unjudging x] : Clean x where
  clean m e t hx he := by
    rw [h.of_error hx] at he
    cases he

instance (x : Exec α) [h : Keeps Moved x] : Clean x := ⟨fun _ _ _ hx _ => h.of_error hx⟩

/-- What follows a part that only reads. -/
theorem bind {x : Exec α} {f : α → Exec β} [hx : Keeps Moved x] (hf : ∀ a, Clean (f a)) :
    Clean (x >>= f) where
  clean m e t h he := by
    rcases bind_eq_error.mp h with h | ⟨a, m₁, hok, h⟩
    · exact hx.of_error h
    · exact Trans.trans (hx.of_ok hok) ((hf a).clean m₁ e t h he)

/-- What is done with a result of operands. -/
theorem andThen {x : Exec α} {f : α → Exec β} [hx : Clean x] [hf : ∀ a, Unjudging (f a)] :
    Clean (x >>= f) where
  clean m e t h he := by
    rcases bind_eq_error.mp h with h | ⟨a, m₁, _, h⟩
    · exact hx.clean m e t h he
    · rw [(hf a).of_error h] at he
      cases he

instance (op : Operator) (a b : Value) : Clean (Exec.apply op a b) := by
  have hfails (symbol : String) (f : String → String → String → Fault) : Keeps Moved (do
      throw (f symbol (← describe a) (← describe b)) : Exec Value) := inferInstance
  unfold Exec.apply
  split
  · split <;> infer_instance
  · split
    · infer_instance
    · split
      · refine bind fun left => bind fun right => ?_
        split <;> infer_instance
      · infer_instance

end Clean

/-- Instructions that the code of an expression without calls is made of. -/
theorem execute_clean (p : Program) (id : Nat) (f : Function) {op : Opcode}
    (hcall : op ≠ .call) (hnative : op ≠ .callNative) (hret : op ≠ .ret)
    (hdefine : op ≠ .define) (hrunnable : op ≠ .defineRunnable) (hend : op ≠ .endRepeat) :
    Clean (execute p id f op) := by
  unfold execute
  cases op with
  | call | callNative | ret | define | defineRunnable | endRepeat => contradiction
  | constant => exact .bind fun _ => .bind fun _ => inferInstance
  | operator op => exact .bind fun _ => .bind fun _ => .andThen
  | test t => exact .bind fun _ => .bind fun _ => .bind fun _ => inferInstance
  | get scope => cases scope <;> exact .bind fun _ => .bind fun _ => inferInstance
  | set scope =>
    cases scope with
    | global => exact .bind fun _ => .bind fun _ => .bind fun _ => inferInstance
    | frame => exact .bind fun _ => .bind fun _ => inferInstance
  | count scope up =>
    cases scope <;> exact .bind fun _ => .bind fun _ => .bind fun _ => inferInstance
  | compound scope op =>
    cases scope <;> exact .bind fun _ => .bind fun _ => .bind fun _ => .andThen
  | negate | complement =>
    refine .bind fun v => ?_
    split <;> infer_instance
  | not => exact .bind fun _ => .bind fun _ => inferInstance
  | _ => infer_instance

end Exec

/-! A turn. -/

section
variable {p : Program} {P : Array (Array Value)} {z : Setting} {m₀ : Machine} {q : Spot}
  {offset n : Nat} {upper more : List Content} {f : Function} {d : Directive} {β : Type} {c : Content}
  {σ : Store}

/-- The run from a machine gets to an offset of a call. -/
def Gets (p : Program) (P : Array (Array Value)) (z : Setting) (m₀ : Machine) (q : Spot) (ip : Nat)
    (upper : List Content) (σ : Store) : Prop :=
  ∃ n m, m₀.runFor p n = (.running, m) ∧ q.Shown p P z ip upper σ m

/-- The run from a machine fails with the same fault inside of the call, with more above what was
there. -/
def Fails (p : Program) (P : Array (Array Value)) (z : Setting) (m₀ : Machine) (q : Spot)
    (upper : List Content) : Stop → Store → Prop
  | .failed g, σ => ∃ n m ip more line, m₀.runFor p n = (.failed ⟨g.fault, line⟩, m) ∧
      q.Shown p P z ip (upper++more) σ m
  | .tired, _ => False

theorem Fails.below {s : Stop} (h : Fails p P z m₀ q (upper++more) s σ) : Fails p P z m₀ q upper s σ := by
  cases s with
  | failed g =>
    obtain ⟨n, m, ip, rest, line, hrun, hm⟩ := h
    exact ⟨n, m, ip, more++rest, line, hrun, by rwa [← List.append_assoc]⟩
  | tired => exact h

theorem Gets.regroup {ip : Nat} {a b : Content} (h : Gets p P z m₀ q ip (upper++[a]++[b]) σ) :
    Gets p P z m₀ q ip (upper++[a, b]) σ := by
  rwa [List.append_assoc] at h

/-- A directive does what a part of a walk does. -/
theorem turn_passes {w : Nat → Walk β} [j : Walk.Judges w] {next : β → Nat}
    {upper' : β → List Content} (hf : p.function? q.function = some f)
    (hcode : Holds f.chunk.code offset d.bytes)
    (hclean : Exec.Clean (Exec.execute p q.function f d.op))
    (hexec : ∀ line σ m, q.Shown p P z (offset+1) upper σ m →
      Exec.Follows line σ (w line) m (Exec.execute p q.function f d.op) fun b σ' _ m' =>
        q.Shown p P z (next b) (upper' b) σ' m') (line : Nat) :
    Yields (Gets p P z m₀ q offset upper) (w line) (fun b => Gets p P z m₀ q (next b) (upper' b))
      (Fails p P z m₀ q upper) := by
  intro σ hσ
  obtain ⟨n, m, hrun, hm⟩ := hσ
  obtain ⟨hadvance, _⟩ := runFor_add_one hrun
  have hmoved := hm.goto (offset+1)
  rcases j.judges σ with ⟨b, τ, hok⟩ | ⟨e, he, herror⟩
  · have hturns := Exec.turns_of_follows hm.2.frames hf hcode
      (fun b => q.lasts_shown (next b) (upper' b)) (hexec _ σ _ hmoved)
    rw [Exec.Turns, hok] at hturns
    obtain ⟨m', hnext, hm'⟩ := hturns
    rw [hok]
    exact ⟨n+1, m', hadvance.trans hnext, hm'⟩
  · have hfollows := hexec (p.sourceLine q.function offset) σ _ hmoved
    rw [Exec.Follows, herror] at hfollows
    obtain ⟨m', hx, _⟩ := hfollows
    obtain ⟨hbyte, _⟩ := holds_cons.mp hcode
    have hip : ¬ f.chunk.code.size ≤ offset := Nat.not_le.mpr (Array.getElem?_eq_some_iff.mp hbyte).1
    have hstep : Exec.step p q.function f m = .error e m' := by
      simp only [Exec.step, bind, EStateM.bind, Exec.readByte_eq hm.2.frames hbyte,
        Opcode.ofByte?_toByte]
      exact hx
    have hfailed : m.advance p = (.failed ⟨e, p.sourceLine q.function offset⟩, m') := by
      simp only [Machine.advance, hm.2.frames, hf, if_neg hip, hstep]
    obtain ⟨ip, hm'⟩ : ∃ ip, q.Shown p P z ip upper σ m' := by
      rcases hclean.clean _ e m' hx he with rfl | ⟨ip, rfl⟩
      · exact ⟨_, hmoved⟩
      · rw [goto_of_frames hmoved.2.frames]
        exact ⟨ip, hmoved.goto ip⟩
    rw [herror]
    exact ⟨n+1, m', ip, [], _, hadvance.trans hfailed, by rwa [List.append_nil]⟩

/-- A directive that the walk has nothing for. -/
theorem Gets.step {next : Nat} {upper' : List Content} (hf : p.function? q.function = some f)
    (hcode : Holds f.chunk.code offset d.bytes)
    (hclean : Exec.Clean (Exec.execute p q.function f d.op))
    (hexec : ∀ line σ m, q.Shown p P z (offset+1) upper σ m →
      Exec.Follows line σ (pure ()) m (Exec.execute p q.function f d.op) fun _ σ' _ m' =>
        q.Shown p P z next upper' σ' m')
    (hσ : Gets p P z m₀ q offset upper σ) : Gets p P z m₀ q next upper' σ :=
  have hpasses : Yields (Gets p P z m₀ q offset upper) (pure () : Walk Unit)
      (fun _ => Gets p P z m₀ q next upper') (Fails p P z m₀ q upper) :=
    turn_passes (w := fun _ => pure ()) hf hcode hclean hexec 0
  hpasses σ hσ

end

/-! Bytes of directives. -/

section
variable {code : Array UInt8} {offset : Nat} {d : Directive} {D E : List Directive} {i : UInt8}
  {distance : UInt16}

theorem holds_encode_append : Holds code offset (encode (D++E)) ↔
    Holds code offset (encode D) ∧ Holds code (offset+size D) (encode E) := by
  rw [Directive.encode_append, holds_append, Directive.length_encode]

theorem holds_encode_cons : Holds code offset (encode (d :: D)) ↔
    Holds code offset d.bytes ∧ Holds code (offset+d.width) (encode D) := by
  rw [Directive.encode_cons, holds_append, Directive.length_bytes]

theorem holds_of_encode (h : Holds code offset (encode [d])) : Holds code offset d.bytes :=
  (holds_encode_cons.mp h).1

theorem Directive.operand_byte (h : Holds code offset d.bytes) (hd : d.operand.bytes = [i]) :
    code[offset+1]? = some i := by
  rw [bytes, hd] at h
  exact (holds_cons.mp (holds_cons.mp h).2).1

theorem Directive.operand_word (h : Holds code offset d.bytes)
    (hd : d.operand.bytes = [Word.high distance, Word.low distance]) :
    code[offset+1]? = some (Word.high distance) ∧
      code[offset+1+1]? = some (Word.low distance) := by
  rw [bytes, hd] at h
  obtain ⟨hhigh, h⟩ := holds_cons.mp (holds_cons.mp h).2
  exact ⟨hhigh, (holds_cons.mp h).1⟩

end

namespace Directive

theorem size_get (scope : Scope) (i : UInt8) : size [get scope i] = 2 := by cases scope <;> rfl

theorem size_assign (a : Assignment) (scope : Scope) (i : UInt8) : size [assign a scope i] = 2 := by
  cases a <;> cases scope <;> rfl

theorem size_unary (u : Unary) : size [unary u] = 1 := by cases u <;> rfl

theorem operand_get (scope : Scope) (i : UInt8) : (get scope i).operand.bytes = [i] := by
  cases scope <;> rfl

theorem operand_assign (a : Assignment) (scope : Scope) (i : UInt8) :
    (assign a scope i).operand.bytes = [i] := by cases scope <;> rfl

end Directive

/-! The code of an expression. -/

section
variable {p : Program} {P : Array (Array Value)} {z : Setting} {m₀ : Machine} {q : Spot} {v : View}
  {offset : Nat} {upper : List Content} {f : Function}

/-- Operators, literals and accesses to variables. -/
theorem clean_of_inner {op : Opcode} (h : op ≠ .call ∧ op ≠ .callNative ∧ op ≠ .ret ∧ op ≠ .define ∧
    op ≠ .defineRunnable ∧ op ≠ .endRepeat) : Exec.Clean (Exec.execute p q.function f op) :=
  Exec.execute_clean p q.function f h.1 h.2.1 h.2.2.1 h.2.2.2.1 h.2.2.2.2.1 h.2.2.2.2.2

/-- The left value stays if it decides; else it makes room for the right one. -/
theorem either_computes {truth : Bool} {d : Phrase} {a : Content} {w : Walk Content}
    (hf : p.function? q.function = some f)
    (hcode : Holds f.chunk.code offset (encode (Phrase.either truth d).directives))
    (hfit : size d.directives+1 < 0x10000)
    (hright : Yields (Gets p P z m₀ q (offset+4) upper) w
      (fun c => Gets p P z m₀ q (offset+4+size d.directives) (upper++[c])) (Fails p P z m₀ q upper)) :
    Yields (Gets p P z m₀ q offset (upper++[a])) (if a.isTruthy = truth then pure a else w)
      (fun c => Gets p P z m₀ q (offset+size (Phrase.either truth d).directives) (upper++[c]))
      (Fails p P z m₀ q upper) := by
  obtain ⟨hjump, hrest⟩ := holds_encode_cons.mp hcode
  obtain ⟨hpop, _⟩ := holds_encode_cons.mp hrest
  have hsize : offset+size (Phrase.either truth d).directives = offset+4+size d.directives := by
    simp only [Phrase.directives, Directive.size_cons, Directive.width_jumpIf, Directive.width_pop]
    omega
  obtain ⟨hhigh, hlow⟩ := Directive.operand_word hjump rfl
  have hdecided {σ : Store} (hσ : Gets p P z m₀ q offset (upper++[a]) σ) := Gets.step hf hjump
    (clean_of_inner (by simp [Directive.jumpIf]))
    (fun _ _ _ hm => Exec.execute_jumpIf hhigh hlow hm truth) hσ
  rw [toNat_distance hfit] at hdecided
  rw [hsize]
  by_cases htruth : a.isTruthy = truth
  · rw [if_pos htruth]
    rw [if_pos htruth, show offset+3+(size d.directives+1) = offset+4+size d.directives by omega]
      at hdecided
    exact Yields.pure fun _ hσ => hdecided hσ
  · rw [if_neg htruth]
    rw [if_neg htruth] at hdecided
    refine hright.mono (fun σ hσ => ?_) (fun _ _ h => h) fun _ _ h => h
    exact Gets.step hf hpop (clean_of_inner (by simp [Directive.pop, Directive.plain]))
      (fun _ _ _ hm => Exec.execute_pop hm) (hdecided hσ)

/-- A test and perhaps its denial. -/
theorem comparison_computes {t : Comparison} {a b : Content} (hf : p.function? q.function = some f)
    (hcode : Holds f.chunk.code offset (encode (Phrase.comparison t).directives)) (line : Nat) :
    Yields (Gets p P z m₀ q offset (upper++[a, b]))
      (do return Content.bool (← Walk.lift line (Content.compare t a b)))
      (fun c => Gets p P z m₀ q (offset+size (Phrase.comparison t).directives) (upper++[c]))
      (Fails p P z m₀ q upper) := by
  have htest {k : Test} (hcode : Holds f.chunk.code offset (Directive.plain (.test k) rfl).bytes) :
      Yields (Gets p P z m₀ q offset (upper++[a, b]))
        (do return Content.bool (← Walk.lift line (Content.test k a b)))
        (fun c => Gets p P z m₀ q (offset+1) (upper++[c])) (Fails p P z m₀ q upper) := by
    have hjudges : Walk.Judges fun line =>
        (do return Content.bool (← Walk.lift line (Content.test k a b)) : Walk Content) :=
      .bind (.lift (Content.judged_test k a b)) (fun _ => Walk.Judges.keeps_lift _ _)
        fun _ => inferInstance
    exact (turn_passes hf hcode (clean_of_inner (by simp [Directive.plain]))
      (fun _ _ _ hm => Exec.execute_test hm k) line).mono (fun _ h => h) (fun _ _ h => h)
      fun _ _ h => h.below
  have hdenied {k : Test} (hcode : Holds f.chunk.code offset
        (encode [.plain (.test k) rfl, .plain .not rfl])) :
      Yields (Gets p P z m₀ q offset (upper++[a, b]))
        (do return Content.bool (← Walk.lift line ((Content.test k a b).map not)))
        (fun c => Gets p P z m₀ q (offset+2) (upper++[c])) (Fails p P z m₀ q upper) := by
    obtain ⟨hfirst, hlast⟩ := holds_encode_cons.mp hcode
    have hwalk : (do return Content.bool (← Walk.lift line ((Content.test k a b).map not)) :
        Walk Content) = (do
          let c ← (do return Content.bool (← Walk.lift line (Content.test k a b)) : Walk Content)
          Walk.lift line (Expr.applyUnary .not c)) := by
      cases Content.test k a b <;> rfl
    rw [hwalk]
    refine Yields.bind (htest hfirst) fun c => ?_
    have hjudges := Walk.Judges.lift (Content.judged_applyUnary .not c)
    exact (turn_passes hf (holds_of_encode hlast) (clean_of_inner (by simp [Directive.plain]))
      (fun _ _ _ hm => Exec.execute_unary hm .not) line).mono (fun _ h => h) (fun _ _ h => h)
      fun _ _ h => h.below
  cases t with
  | equal | less | greater => exact htest (holds_of_encode hcode)
  | notEqual | lessEqual | greaterEqual => exact hdenied hcode

/-- The code of an expression computes what the expression means. -/
theorem Expr.Codes.computes {k : ExprKind} {e : Expr k} {c : Phrase} (he : e.Codes p v c)
    (hq : q.Sees v) (hcalls : e.calls = []) (hf : p.function? q.function = some f)
    (hcode : Holds f.chunk.code offset (encode c.directives)) (hroom : q.Room z upper e.cells)
    (line : Nat) :
    Yields (Gets p P z m₀ q offset upper) (e.eval line)
      (fun r => Gets p P z m₀ q (offset+size c.directives) (upper++k.cells r))
      (Fails p P z m₀ q upper) := by
  induction he generalizing offset upper with
  | @number digits value index hv hc =>
    rw [hq.function] at hc
    rw [eval, hv]
    have hd := holds_of_encode hcode
    exact turn_passes (w := fun _ => (pure (.number value) : Walk Content)) hf hd
      (clean_of_inner (by simp [Directive.constant]))
      (fun _ _ _ hm => Exec.execute_constant hm (Directive.operand_byte hd rfl) hc rfl hroom) line
  | @text content index hc =>
    rw [hq.function] at hc
    have hd := holds_of_encode hcode
    exact turn_passes (w := fun _ => (pure (.text content) : Walk Content)) hf hd
      (clean_of_inner (by simp [Directive.constant]))
      (fun _ _ _ hm => Exec.execute_constant hm (Directive.operand_byte hd rfl) hc rfl hroom) line
  | literal value =>
    exact turn_passes (w := fun _ => (pure (literalContent value) : Walk Content)) hf
      (holds_of_encode hcode) (clean_of_inner (by simp [Directive.literal, Directive.plain]))
      (fun _ _ _ hm => Exec.execute_literal hm value hroom) line
  | group _ ih => exact ih hcalls hcode hroom
  | head _ ih => exact ih hcalls hcode hroom
  | @unary u e c _ ih =>
    obtain ⟨hinside, hlast⟩ := holds_encode_append.mp hcode
    have hd : Holds _ _ (Directive.unary u).bytes := holds_of_encode hlast
    rw [Phrase.directives, Directive.size_append, ← Nat.add_assoc, Phrase.directives,
      Directive.size_unary]
    refine Yields.bind (ih hcalls hinside hroom) fun (a : Content) => ?_
    have hjudges := Walk.Judges.lift (Content.judged_applyUnary u a)
    refine (turn_passes hf hd (clean_of_inner ?_) (fun _ _ _ hm => Exec.execute_unary hm u)
      line).mono (fun _ h => h) (fun _ _ h => h) fun _ _ h => h.below
    cases u <;> simp [Directive.unary, Directive.plain, Unary.opcode]
  | @name x scope i hx =>
    have hd : Holds _ _ (Directive.get scope i).bytes := holds_of_encode hcode
    rw [Phrase.directives, Directive.size_get]
    refine turn_passes (w := fun line => Walk.read line x) hf hd
      (clean_of_inner (by simp [Directive.op_get])) (fun line σ m hm => ?_) line
    rw [Directive.op_get]
    exact Exec.execute_get hm hf hq hx (Directive.operand_byte hd (Directive.operand_get scope i)) hroom
  | @count x up scope i hx =>
    have hd : Holds _ _ (Directive.assign (.count up) scope i).bytes := holds_of_encode hcode
    rw [Phrase.directives, Directive.size_assign]
    have hjudges : Walk.Judges fun line => (do
        let c ← Walk.lift line ((← Walk.assignable line x).counted up)
        Walk.write x c
        return c : Walk Content) :=
      .bind inferInstance inferInstance fun old => .bind (.lift (Content.judged_counted up old))
        (fun _ => Walk.Judges.keeps_lift _ _) fun _ => inferInstance
    refine turn_passes (j := hjudges) hf hd
      (clean_of_inner (by simp [Directive.op_assign, Assignment.opcode])) (fun line σ m hm => ?_) line
    rw [Directive.op_assign]
    exact Exec.execute_count hm hf hq hx
      (Directive.operand_byte hd (Directive.operand_assign _ scope i)) up hroom
  | @assign x op e scope i c hx _ ih =>
    obtain ⟨hvalue, hlast⟩ := holds_encode_append.mp hcode
    have hd : Holds _ _ (Directive.assign (assignment op) scope i).bytes := holds_of_encode hlast
    have hbyte := Directive.operand_byte hd (Directive.operand_assign _ scope i)
    have hclean : Exec.Clean (Exec.execute p q.function f
        (Directive.assign (assignment op) scope i).op) :=
      clean_of_inner (by cases op <;> simp [Directive.op_assign, Assignment.opcode, assignment])
    rw [Phrase.directives, Directive.size_append, ← Nat.add_assoc, Phrase.directives,
      Directive.size_assign]
    cases op with
    | none =>
      refine Yields.bind (ih hcalls hvalue hroom) fun (a : Content) => ?_
      have hjudges : Walk.Judges fun line => (do
          let _ ← Walk.assignable line x
          Walk.write x a
          return a : Walk Content) := .bind inferInstance inferInstance fun _ => inferInstance
      refine (turn_passes (j := hjudges) hf hd hclean (fun line σ m hm => ?_)
        line).mono (fun _ h => h) (fun _ _ h => h) fun _ _ h => h.below
      rw [Directive.op_assign]
      exact Exec.execute_set hm hf hq hx hbyte
    | some op =>
      refine Yields.bind (ih hcalls hvalue hroom) fun (a : Content) => ?_
      have hjudges : Walk.Judges fun line => (do
          let d ← Walk.lift line ((← Walk.assignable line x).apply op a)
          Walk.write x d
          return d : Walk Content) :=
        .bind inferInstance inferInstance fun old => .bind (.lift (Content.judged_apply op old a))
          (fun _ => Walk.Judges.keeps_lift _ _) fun _ => inferInstance
      refine (turn_passes (j := hjudges) hf hd hclean (fun line σ m hm => ?_)
        line).mono (fun _ h => h) (fun _ _ h => h) fun _ _ h => h.below
      rw [Directive.op_assign]
      exact Exec.execute_compound hm hf hq hx hbyte op
  | call => simp [calls] at hcalls
  | callNative => simp [calls] at hcalls
  | @operator l r op c d _ _ ihl ihr =>
    simp only [calls, List.append_eq_nil_iff] at hcalls
    obtain ⟨hleft, hrest⟩ := holds_encode_append.mp hcode
    obtain ⟨hright, hlast⟩ := holds_encode_append.mp hrest
    have hsize : offset+size (Phrase.seq c (.seq d (.one (.plain (.operator op) rfl)))).directives =
        offset+size c.directives+size d.directives+1 := by
      simp only [Phrase.directives, Directive.size_append, Directive.size_cons, Directive.size_nil,
        Nat.add_assoc]
      rfl
    rw [hsize]
    have hcells : max l.cells (1+r.cells) = (join l (.operator op) r).cells := rfl
    refine Yields.bind (ihl hcalls.1 hleft (hroom.mono (by omega))) fun (a : Content) => ?_
    refine Yields.bind ((ihr hcalls.2 hright (Spot.Room.above (hroom.mono ?_))).mono
      (fun _ h => h) (fun _ _ h => h) fun _ _ h => h.below) fun (b : Content) => ?_
    · rw [← hcells]
      exact le_max_right _ _
    · have hjudges := Walk.Judges.lift (Content.judged_apply op a b)
      exact (turn_passes hf (holds_of_encode hlast) (clean_of_inner (by simp [Directive.plain]))
        (fun _ _ _ hm => Exec.execute_operator hm op) line).mono (fun _ h => Gets.regroup h)
        (fun _ _ h => h) fun _ _ h => h.below
  | @comparison l r t c d _ _ ihl ihr =>
    simp only [calls, List.append_eq_nil_iff] at hcalls
    obtain ⟨hleft, hrest⟩ := holds_encode_append.mp hcode
    obtain ⟨hright, hlast⟩ := holds_encode_append.mp hrest
    have hsize : offset+size (Phrase.seq c (.seq d (.comparison t))).directives =
        offset+size c.directives+size d.directives+size (Phrase.comparison t).directives := by
      simp only [Phrase.directives, Directive.size_append, Nat.add_assoc]
    rw [hsize]
    have hcells : max l.cells (1+r.cells) = (join l (.comparison t) r).cells := rfl
    refine Yields.bind (ihl hcalls.1 hleft (hroom.mono (by omega))) fun (a : Content) => ?_
    refine Yields.bind ((ihr hcalls.2 hright (Spot.Room.above (hroom.mono ?_))).mono
      (fun _ h => h) (fun _ _ h => h) fun _ _ h => h.below) fun (b : Content) => ?_
    · rw [← hcells]
      exact le_max_right _ _
    · exact (comparison_computes hf hlast line).mono (fun _ h => Gets.regroup h) (fun _ _ h => h)
        fun _ _ h => h
  | @and l r c d _ _ hfit ihl ihr =>
    simp only [calls, List.append_eq_nil_iff] at hcalls
    obtain ⟨hleft, hlast⟩ := holds_encode_append.mp hcode
    obtain ⟨_, hright⟩ := (holds_encode_append
      (D := [.jumpIf false (size d.directives+1), .pop])).mp hlast
    have hcells : max l.cells r.cells = (join l .and r).cells := rfl
    rw [Phrase.directives, Directive.size_append, ← Nat.add_assoc]
    refine Yields.bind (ihl hcalls.1 hleft (hroom.mono (by omega))) fun (a : Content) => ?_
    have h := either_computes (a := a) (w := r.eval line) hf hlast hfit
      (ihr hcalls.2 hright (hroom.mono (by omega)))
    cases ha : a.isTruthy <;> simp only [ha] at h ⊢ <;> exact h
  | @or l r c d _ _ hfit ihl ihr =>
    simp only [calls, List.append_eq_nil_iff] at hcalls
    obtain ⟨hleft, hlast⟩ := holds_encode_append.mp hcode
    obtain ⟨_, hright⟩ := (holds_encode_append
      (D := [.jumpIf true (size d.directives+1), .pop])).mp hlast
    have hcells : max l.cells r.cells = (join l .or r).cells := rfl
    rw [Phrase.directives, Directive.size_append, ← Nat.add_assoc]
    refine Yields.bind (ihl hcalls.1 hleft (hroom.mono (by omega))) fun (a : Content) => ?_
    have h := either_computes (a := a) (w := r.eval line) hf hlast hfit
      (ihr hcalls.2 hright (hroom.mono (by omega)))
    cases ha : a.isTruthy <;> simp only [ha] at h ⊢ <;> exact h
  | nil =>
    apply Yields.pure
    intro σ hσ
    exact (List.append_nil upper).symm ▸ hσ
  | @cons e rest c d _ _ ihe ihrest =>
    simp only [calls, List.append_eq_nil_iff] at hcalls
    obtain ⟨hfirst, hrest⟩ := holds_encode_append.mp hcode
    have hcells : max e.cells (1+rest.cells) = (Expr.cons e rest).cells := rfl
    rw [Phrase.directives, Directive.size_append, ← Nat.add_assoc]
    refine Yields.bind (ihe hcalls.1 hfirst (hroom.mono (by omega))) fun (a : Content) => ?_
    refine Yields.bind ((ihrest hcalls.2 hrest (Spot.Room.above (hroom.mono ?_))).mono
      (fun _ h => h) (fun _ _ h => h) fun _ _ h => h.below) fun (b : List Content) => ?_
    · rw [← hcells]
      exact le_max_right _ _
    · apply Yields.pure
      intro σ hσ
      rw [List.append_assoc] at hσ
      exact hσ

end
end RatScript
