import RatScript.Proofs.Machine.Liveness

/-!
The one way to touch a freed object. Programs run from a new machine fail in the heap exactly if they
add a text to the very cell it is taken from, and verification lets them do so with one slot only, the
topmost.
-/

namespace RatScript

open Stateful

namespace Machine

/-- The next turn adds to a slot, and the operand on top is the text in that slot itself. -/
def JoinsItself (p : Program) (m : Machine) : Prop :=
  ∃ fr ∈ m.frames.head?, ∃ f ∈ p.function? fr.function, ∃ slot ∈ f.chunk.code[fr.ip+1]?,
    ∃ v ∈ m.stack.back?, f.chunk.code[fr.ip]?.bind Opcode.ofByte? = some (.compound .frame .add) ∧
      fr.base+slot.toNat+2 = m.stack.size ∧ m.heap.isText v

instance (p : Program) (m : Machine) : Decidable (m.JoinsItself p) := by
  unfold JoinsItself
  infer_instance

end Machine

namespace Exec

open Machine

variable {p : Program} {z : Setting} {X : List Value} {S : Handle → Prop} {m m' : Machine}
  {v : Value}

theorem step_careful {fr : Frame} {rest : List Frame} {f : Function} (hm : m.Counted z X S)
    (hframes : m.frames = fr :: rest) (hf : p.function? fr.function = some f)
    (hother : ¬ m.JoinsItself p) : Careful (· = m) (step p fr.function f) fun _ _ => True := by
  refine Careful.chain (Careful.start hm Careful.counts) fun byte m' hread hm' => ?_
  obtain ⟨fr', rest', hframes', hbyte, rfl⟩ := readByte_changes hread
  rw [hframes] at hframes'
  cases hframes'
  split
  · next op hop =>
    refine execute_careful p fr.function f op hm' ?_
    intro g others slot hadd hg hslot hsize w hw htext
    cases hg
    exact hother ⟨fr, by simp [hframes], f, hf, slot, hslot, w, hw, by simp [hbyte, hop, hadd],
      hsize, htext⟩
  · exact Careful.throw rfl

theorem stackText_of_live {vs : List Value} (h : ∀ v ∈ vs, Live v m) (text : String) :
    ∃ shown, stackText m.heap text vs = .ok shown := by
  induction vs generalizing text with
  | nil => exact ⟨text, rfl⟩
  | cons v vs ih =>
    obtain ⟨hv, hvs⟩ := List.forall_mem_cons.mp h
    obtain ⟨word, hword⟩ := Heap.display_of_live hv
    obtain ⟨shown, hshown⟩ := ih hvs (text++"[ "++word++" ]")
    refine ⟨shown, ?_⟩
    simp only [stackText, hword, bind, Except.bind]
    exact hshown

theorem trace_careful (offset : Nat) :
    Careful (Counted z X S) (trace offset) fun _ _ => True := by
  intro m hm
  suffices h : Careful (· = m) (trace offset) fun _ _ => True from h m rfl
  apply Yields.get_bind
  rintro m rfl
  refine Careful.find (ask_finds (stackText_of_live (fun v hv => live_of_stack hm hv) ""))
    fun cells _ => ?_
  rintro m rfl
  refine (Offheap.bind inferInstance fun ok => ?_ : Offheap _).careful m trivial
  split
  · infer_instance
  · exact Offheap.throw rfl

theorem peek_top (hv : m.stack.back? = some v) : peek 0 m = .ok v m := by
  rw [Array.back?_eq_getElem?] at hv
  obtain ⟨hlt, _⟩ := Array.getElem?_eq_some_iff.mp hv
  have hpos : 0 < m.stack.size := by omega
  simp only [peek, bind, EStateM.bind, get, getThe, MonadStateOf.get, EStateM.get, hpos, if_true,
    Nat.sub_zero, hv]
  rfl

theorem apply_join {content : String} (hv : m.heap.object v = .ok (some (.text content))) :
    Exec.apply .add v v m = newText (content++content) m := by
  have htext : text? v m = .ok (some content) m := by
    simp only [text?, object, ask, bind, EStateM.bind, get, getThe, MonadStateOf.get, EStateM.get,
      hv]
    rfl
  cases v with
  | object r =>
    simp only [Exec.apply, Operator.arithmetic?, beq_self_eq_true, if_true, bind, EStateM.bind, htext]
  | none | number | bool => cases hv

/-- What nobody holds and was not just made is dead. -/
theorem dead_of_not_held {r : Handle} (hm : m.Counted z [] fun _ => False)
    (hr : .object r ∉ m.held) : m.heap.live? r = none := by
  cases hl : m.heap.live? r with
  | none => rfl
  | some l =>
    have hcount := hm.counts r
    rw [Heap.refs_of_live hl, List.nil_append, List.count_eq_zero_of_not_mem hr] at hcount
    exact (hm.kept r l hl hcount).elim

/-- The result is stored over its operand, and is gone with it when it should be pushed. -/
theorem replaceTop_stale {slot : UInt8} {index : Nat} {r : Handle}
    (hm : m.Counted z [] (Loose (fun _ => False) (.object r))) (hr : Fresh z (.object r) m)
    (hcell : HasCell slot index m) (htop : index+1 = m.stack.size) :
    ∃ m', (do storeLocal slot (.object r); replaceTop (.object r) : Exec Unit) m =
      .error (.heap (.stale r)) m' := by
  have hunheld : Value.object r ∉ m.held := by
    intro hheld
    obtain ⟨_, o, ho⟩ := hr r rfl
    have hcount := hm.counts r
    rw [Heap.refs_of_live ho] at hcount
    exact List.count_eq_zero.mp hcount.symm hheld
  obtain ⟨_, m₁, hstore, hm₁⟩ := Yields.succeeds (storeLocal_of_retain hcell fun old hold =>
    Yields.start ⟨hm, hr.live, hold⟩ (retain_live (aside_stack (P := (·[index]? = some old))) _)) rfl
  obtain ⟨hstack, hglobals, hpools⟩ := storeLocal_changes hcell hstore
  have hsize : m₁.stack.size = index+1 := by rw [hstack, Array.size_setIfInBounds, htop]
  obtain ⟨_, m₂, hpop, hm₂, hsize₂⟩ := Yields.succeeds (pop_yields index) ⟨hm₁, hsize⟩
  obtain ⟨_, h, _, rfl⟩ := pop_changes hpop
  have hdead : h.live? r = none := by
    refine dead_of_not_held hm₂ fun hheld => hunheld ?_
    rcases List.mem_append.mp hheld with hheld | hpool
    · rcases List.mem_append.mp hheld with hstored | hglobal
      · -- the cell that was stored to is the one that was popped
        obtain ⟨j, hj⟩ := Array.getElem?_of_mem (Array.mem_toList_iff.mp hstored)
        rw [Array.getElem?_pop, hsize] at hj
        split at hj
        · rw [hstack, Array.getElem?_setIfInBounds_ne (by omega)] at hj
          exact List.mem_append_left _ (List.mem_append_left _
            (Array.mem_toList_iff.mpr (Array.mem_of_getElem? hj)))
        · cases hj
      · exact List.mem_append_left _ (List.mem_append_right _ (hglobals ▸ hglobal))
    · exact List.mem_append_right _ (hpools ▸ hpool)
  have hroom : index < m₁.config.stackCapacity := by
    have h := hm₁.room
    rw [hm₁.config]
    omega
  generalize hm₃ : ({m₁ with stack := m₁.stack.pop, heap := h} : Machine) = m₃ at hpop hsize₂
  have hpush : push (.object r) m₃ = .error (.heap (.stale r)) m₃ := by
    subst m₃
    simp only [push, bind, EStateM.bind, get, getThe, MonadStateOf.get, EStateM.get, hsize₂, hroom,
      if_true, retain, Heap.retainValue]
    rw [onHeap_error (Heap.retain_stale hdead)]
  exact ⟨m₃, by simp only [bind, EStateM.bind, hstore, replaceTop, hpop, hpush]⟩

/-- A text that is added to the cell it is in fails. -/
theorem compoundFrame_stale {slot : UInt8} {index : Nat} (hm : m.Counted z [] fun _ => False)
    (hcell : HasCell slot index m) (htop : index+1 = m.stack.size) (hv : m.stack.back? = some v)
    (htext : m.heap.isText v) :
    ∃ r m', (do
      let old ← loadLocal slot
      let w ← peek 0
      let u ← Exec.apply .add old w
      storeLocal slot u
      replaceTop u : Exec Unit) m = .error (.heap (.stale r)) m' := by
  obtain ⟨w, hw, hload⟩ := loadLocal_ok hcell
  have hsame : w = v := by
    rw [Array.back?_eq_getElem?, ← htop, Nat.add_sub_cancel, hw] at hv
    exact Option.some.inj hv
  subst w
  obtain ⟨content, hcontent⟩ : ∃ content, m.heap.object v = .ok (some (.text content)) := by
    unfold Heap.isText at htext
    split at htext
    · next content h => exact ⟨content, h⟩
    · cases htext
  obtain ⟨u, m₁, hnew, hm₁, hfresh, hstack, hframes⟩ := Yields.succeeds
    (newText_yields (F := fun m' => m'.stack = m.stack ∧ m'.frames = m.frames) (fun _ _ h => h)
      (content++content)) ⟨hm, rfl, rfl⟩
  obtain ⟨r, rfl⟩ : ∃ r, u = .object r := by
    obtain ⟨r, _, _, hr⟩ := bind_eq_ok.mp hnew
    exact ⟨r, (pure_eq_ok.mp hr).1.symm⟩
  obtain ⟨fr, rest, hfr, hindex, hlt⟩ := hcell
  have hcell₁ : HasCell slot index m₁ := ⟨fr, rest, hframes ▸ hfr, hindex, hstack ▸ hlt⟩
  obtain ⟨m₂, hstale⟩ := replaceTop_stale hm₁ hfresh hcell₁ (hstack ▸ htop)
  refine ⟨r, m₂, ?_⟩
  simp only [bind, EStateM.bind, hload, peek_top hv, apply_join hcontent, hnew] at hstale ⊢
  exact hstale

/-- An instruction that adds a text to the cell it is in fails. -/
theorem step_stale {fr : Frame} {rest : List Frame} {f : Function}
    (hm : m.Counted z [] fun _ => False) (hframes : m.frames = fr :: rest)
    (hf : p.function? fr.function = some f) (hjoins : m.JoinsItself p) :
    ∃ r m', step p fr.function f m = .error (.heap (.stale r)) m' := by
  obtain ⟨_, hfr, _, hf', slot, hslot, v, hv, hop, hsize, htext⟩ := hjoins
  rw [hframes] at hfr
  cases hfr
  rw [Option.mem_def, hf] at hf'
  cases hf'
  obtain ⟨byte, hbyte, hop⟩ := Option.bind_eq_some_iff.mp hop
  have hread : readByte f.chunk.code m = _ := readByte_eq hframes hbyte
  have hread' := readByte_eq (m := {m with frames := ⟨fr.function, fr.ip+1, fr.base⟩ :: rest}) rfl hslot
  have hm' : ({m with frames := ⟨fr.function, fr.ip+1+1, fr.base⟩ :: rest} : Machine).Counted z []
      fun _ => False := by
    have hkeeps : Keeps (Invariant (Counted z [] fun _ => False)) (readByte f.chunk.code) :=
      inferInstance
    exact hkeeps.of_ok hread' (hkeeps.of_ok hread hm)
  have hcell : HasCell slot (fr.base+slot.toNat+1)
      {m with frames := ⟨fr.function, fr.ip+1+1, fr.base⟩ :: rest} :=
    ⟨_, rest, rfl, rfl, show fr.base+slot.toNat+1 < m.stack.size by omega⟩
  obtain ⟨r, m', hstale⟩ := compoundFrame_stale hm' hcell hsize hv htext
  refine ⟨r, m', ?_⟩
  simp only [step, bind, EStateM.bind, hread, hop, execute, hread'] at hstale ⊢
  exact hstale

end Exec

namespace Machine

variable {p : Program} {z : Setting} {X : List Value} {S : Handle → Prop} {m m' : Machine}

theorem advance_careful (hm : m.Counted z X S) (hother : ¬ m.JoinsItself p) {failure : Failure}
    (h : m.advance p = (.failed failure, m')) : failure.fault.isHeap = false := by
  unfold advance at h
  cases hframes : m.frames with
  | nil =>
    rw [hframes] at h
    cases h
    rfl
  | cons fr rest =>
    rw [hframes] at h
    cases hf : p.function? fr.function with
    | none =>
      simp only [hf] at h
      cases h
      rfl
    | some f =>
      have hkeeps : Keeps (Invariant (Counted z X S)) (Exec.step p fr.function f) := inferInstance
      have hstep := Exec.step_careful hm hframes hf hother m rfl
      simp only [hf] at h
      split at h
      · split at h
        · cases h
        · cases h
          rfl
      · cases hs : Exec.step p fr.function f m with
        | error e t =>
          rw [hs] at h hstep
          cases h
          exact hstep
        | ok u t =>
          have htrace := Exec.trace_careful fr.ip t (hkeeps.of_ok hs hm)
          simp only [hs] at h
          split at h
          · cases ht : Exec.trace fr.ip t with
            | error e t' =>
              rw [ht] at h htrace
              cases h
              exact htrace
            | ok u t' =>
              rw [ht] at h
              cases h
          · cases h

theorem advance_stale (hm : m.Counted z [] fun _ => False) (hjoins : m.JoinsItself p) :
    ∃ e line m', m.advance p = (.failed ⟨.heap e, line⟩, m') := by
  obtain ⟨fr, hfr, f, hf, slot, hslot, _⟩ := id hjoins
  cases hframes : m.frames with
  | nil =>
    rw [hframes] at hfr
    cases hfr
  | cons _ rest =>
    rw [hframes] at hfr
    cases hfr
    obtain ⟨r, m', hstep⟩ := Exec.step_stale hm hframes hf hjoins
    obtain ⟨hlt, _⟩ := Array.getElem?_eq_some_iff.mp hslot
    refine ⟨.stale r, p.sourceLine fr.function fr.ip, m', ?_⟩
    have hinside : ¬ f.chunk.code.size ≤ fr.ip := by omega
    simp only [advance, hframes, Option.mem_def.mp hf, hstep, hinside, if_false]

/-- A run fails in the heap exactly if one of its turns adds a text to the cell it is taken from. -/
theorem runFor_heap_iff (turns : Nat) (hm : m.Counted z [] fun _ => False) :
    (∃ e line m', m.runFor p turns = (.failed ⟨.heap e, line⟩, m')) ↔
      ∃ k < turns, ∃ m', m.runFor p k = (.running, m') ∧ m'.JoinsItself p := by
  induction turns generalizing m with
  | zero =>
    constructor
    · rintro ⟨e, line, m', h⟩
      cases h
    · rintro ⟨k, hk, _⟩
      omega
  | succ turns ih =>
    by_cases hjoins : m.JoinsItself p
    · obtain ⟨e, line, m', h⟩ := advance_stale hm hjoins
      exact iff_of_true ⟨e, line, m', by simp only [runFor, h]⟩ ⟨0, by omega, m, rfl, hjoins⟩
    have hnext := advance_counted p hm
    have hfails (failure : Failure) (m' : Machine) (h : m.advance p = (.failed failure, m')) :
        failure.fault.isHeap = false := advance_careful hm hjoins h
    cases ha : m.advance p with
    | mk outcome m₁ =>
      rw [ha] at hnext
      have hsplit : (∃ k < turns+1, ∃ m', m.runFor p k = (.running, m') ∧ m'.JoinsItself p) ↔
          ∃ k < turns, ∃ m', m.runFor p (k+1) = (.running, m') ∧ m'.JoinsItself p := by
        constructor
        · rintro ⟨k, hk, m', hrun, hm'⟩
          cases k with
          | zero =>
            cases hrun
            exact absurd hm' hjoins
          | succ k => exact ⟨k, by omega, m', hrun, hm'⟩
        · rintro ⟨k, hk, h⟩
          exact ⟨k+1, by omega, h⟩
      rw [hsplit]
      cases outcome with
      | running =>
        simp only [runFor, ha]
        exact ih hnext
      | finished =>
        simp only [runFor, ha]
        simp
      | failed failure =>
        have hfault := hfails failure m₁ ha
        simp only [runFor, ha]
        constructor
        · rintro ⟨e, line, m', h⟩
          cases h
          cases hfault
        · rintro ⟨k, _, m', h, _⟩
          cases h

theorem interpret_heap_iff {start : Machine} (turns : Nat) (hload : Exec.load p start = .ok () m) :
    (∃ e line m', start.interpret p turns = (.failed ⟨.heap e, line⟩, m')) ↔
      ∃ e line m', m.runFor p turns = (.failed ⟨.heap e, line⟩, m') := by
  simp only [interpret, hload]
  split
  · next m' hrun => simp [hrun]
  · rfl

theorem interpret_running_iff {start : Machine} (turns : Nat)
    (hload : Exec.load p start = .ok () m) :
    start.interpret p turns = (.running, m') ↔ m.runFor p turns = (.running, m') := by
  simp only [interpret, hload]
  split
  · next m' hrun => simp [hrun]
  · rfl

/-- Verification gives the slot no more room than the operand itself takes. -/
theorem height_of_joins (hverify : p.verify = .ok ()) (hfits : p.Fits m.stack.size m.frames) (hjoins : m.JoinsItself p) :
    ∃ fr ∈ m.frames.head?, ∃ f ∈ p.function? fr.function, ∃ slot ∈ f.chunk.code[fr.ip+1]?,
      p.heightAt? fr.function fr.ip = some (slot.toNat+1) := by
  obtain ⟨fr, hfr, f, hf, slot, hslot, v, _, hop, hsize, _⟩ := hjoins
  refine ⟨fr, hfr, f, hf, slot, hslot, ?_⟩
  obtain ⟨byte, hbyte, hop⟩ := Option.bind_eq_some_iff.mp hop
  obtain ⟨hlt, _⟩ := Array.getElem?_eq_some_iff.mp hslot
  cases hframes : m.frames with
  | nil =>
    rw [hframes] at hfr
    cases hfr
  | cons _ rest =>
    rw [hframes] at hfr hfits
    cases hfr
    obtain ⟨height, hmeets, htop⟩ | ⟨_, hend⟩ := Program.meets_of_fits hfits hf
    · obtain ⟨i, next, s⟩ := Program.stop_of_meets hf hmeets
      obtain ⟨byte', hbyte', hdecode⟩ := s.byte
      rw [hbyte] at hbyte'
      cases hbyte'
      have hi : i.op = .compound .frame .add := by
        have h := (Instruction.decode_eq_ok hdecode).1
        rw [hop] at h
        exact (Option.some.inj h).symm
      have hspelt := s.spelt
      rw [hi] at hspelt
      obtain ⟨slot', hslot', hoperand⟩ := hspelt
      rw [Option.mem_def.mp hslot] at hslot'
      cases hslot'
      -- a script has no slots
      have hid : fr.function ≠ 0 := fun hid => by
        have hscript := (Program.isScript_iff hverify hf).mpr hid
        rw [(s.slot hoperand).1] at hscript
        cases hscript
      rw [Program.floor_of_fits hfits hid] at htop
      obtain ⟨_, _, _, hheight⟩ := hmeets
      rw [hheight]
      congr 1
      omega
    · omega

/-- Calls a runnable that adds its argument to itself, in the cell where it is. -/
def doubling : Program :=
  ⟨#[⟨"<script>", 0, #[], ⟨#[55, 0, 0, 0, 23, 1, 2, 2, 56, 1, 6],
      #[.runnable 1, .text "f", .text "rat"]⟩, none, 0⟩,
    ⟨"f", 1, #["x"], ⟨#[40, 0, 1], #[]⟩, some 0, 0⟩]⟩

theorem doubling_verifies : doubling.verify = .ok () := by cbv

theorem doubling_charged :
    ∀ k < 5, ((new {} quiet).interpret doubling k).2.Charged doubling := by
  decide +kernel

theorem doubling_joins : ((new {} quiet).interpret doubling 4).1 = .running ∧
    ((new {} quiet).interpret doubling 4).2.JoinsItself doubling := by
  decide +kernel

end Machine
end RatScript
