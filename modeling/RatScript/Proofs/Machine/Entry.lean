import RatScript.Code.Encoding
import RatScript.Proofs.Code.HeightRule
import RatScript.Proofs.Machine.Reload
import RatScript.Proofs.Machine.Simulation

/-!
Programs read from bytes and put on a new machine. Loading needs every function that a constant
names, while verification asks only for those that an instruction defines; a script begins with an
empty stack, while verification begins with as many values as the script has parameters.
-/

namespace RatScript

open Stateful

namespace Exec

variable {p : Program} {m m' : Machine}

theorem finds_of_newConstant {k : Constant} {v : Value} (h : newConstant p k m = .ok v m') :
    p.Finds k := by
  cases k with
  | number n => trivial
  | text content => trivial
  | runnable id =>
    cases hid : p.function? id with
    | none =>
      simp only [newConstant, hid] at h
      exact absurd h throw_ne_ok
    | some f => simp [Program.Finds, hid]

theorem finds_of_newPool {constants : List Constant} {found pool : Array Value}
    (h : newPool p found constants m = .ok pool m') : ∀ k ∈ constants, p.Finds k := by
  induction constants generalizing found m with
  | nil => simp
  | cons k rest ih =>
    obtain ⟨v, _, hk, h⟩ := bind_eq_ok.mp h
    obtain ⟨_, _, _, h⟩ := bind_eq_ok.mp h
    exact List.forall_mem_cons.mpr ⟨finds_of_newConstant hk, ih h⟩

theorem finds_of_loadConstants {functions : List Function}
    (h : loadConstants p functions m = .ok () m') :
    ∀ f ∈ functions, ∀ k ∈ f.chunk.constants.toList, p.Finds k := by
  induction functions generalizing m with
  | nil => simp
  | cons f rest ih =>
    obtain ⟨_, _, hpool, h⟩ := bind_eq_ok.mp h
    obtain ⟨_, _, _, h⟩ := bind_eq_ok.mp h
    exact List.forall_mem_cons.mpr ⟨finds_of_newPool hpool, ih h⟩

theorem resolves_of_load (h : load p m = .ok () m') : p.Resolves := by
  obtain ⟨_, _, _, h⟩ := bind_eq_ok.mp h
  obtain ⟨_, _, _, h⟩ := bind_eq_ok.mp h
  obtain ⟨_, _, hconstants, _⟩ := bind_eq_ok.mp h
  exact finds_of_loadConstants hconstants

end Exec

namespace Program

variable {p : Program}

theorem verify_of_ofBytes {bytes : List UInt8} (h : ofBytes bytes = .ok p) : p.verify = .ok () := by
  unfold ofBytes at h
  cases hbody : body bytes with
  | error e => simp [hbody, bind, Except.bind] at h
  | ok rest =>
    simp only [hbody, bind, Except.bind] at h
    split at h
    · cases h
    · split at h
      · cases h
      · next hverify =>
        cases h
        exact hverify

/-- A function that an instruction defines is there. -/
theorem finds_of_defined (hverify : p.verify = .ok ()) {f : Function} {i : Instruction}
    {index : UInt8} {lines : UInt16} {k : Constant} (hf : f ∈ p.functions.toList)
    (hi : i ∈ f.chunk.instructions) (hoperand : i.operand = .runnable index lines)
    (hk : f.chunk.constant? index = some k) : p.Finds k := by
  obtain ⟨id, hid⟩ := List.mem_iff_getElem?.mp hf
  obtain ⟨heights, hok⟩ := (verify_eq_ok hverify).2 id f (by simpa [function?] using hid)
  have hcheck := (heights_eq_ok hok).2.operands i (Array.mem_toList_iff.mp hi)
  have hop : i.op = .defineRunnable := by
    have hlayout := i.op.of_layout
    rwa [← Instruction.laid_of_mem hi, hoperand] at hlayout
  simp only [Function.checkOperand, hoperand, hop] at hcheck
  obtain ⟨_, hconstant, function, callee, rfl, hcallee, _⟩ := Function.checkConstant_eq_ok hcheck
  rw [hk] at hconstant
  cases hconstant
  simp [Finds, hcallee]

/-- Verification enters a function with its parameters. -/
theorem heightAt?_entry (hverify : p.verify = .ok ()) {id : Nat} {f : Function}
    (hf : p.function? id = some f) (hcode : f.chunk.code.size ≠ 0) :
    p.heightAt? id 0 = some f.arity := by
  have harrives := arrives_entry hverify hf
  unfold Arrives at harrives
  rw [if_neg (Ne.symm hcode)] at harrives
  obtain ⟨_, _, _, hheight⟩ := harrives
  exact hheight

end Program

namespace Machine

theorem missing_of_load {p : Program} {config : Config} {world : World} {start m : Machine}
    {fault : Fault} (hstart : start = new config world)
    (h : Exec.load p start = .error fault m) : ∃ id, fault = .missingConstant id := by
  have hfresh : start.Counted (.basic config false 0) [] fun _ => False :=
    hstart ▸ counted_new config world
  have hunbound : Exec.Unbound false start := fun _ => by rw [hstart]; rfl
  have hyields := Exec.load_yields p start ⟨hfresh, hunbound⟩
  rw [h] at hyields
  exact hyields.2.2

/-- A script is entered with an empty stack. -/
theorem load_enters {p : Program} {config : Config} {world : World} {start m : Machine}
    (hstart : start = new config world) (h : Exec.load p start = .ok () m) :
    m.stack = #[] ∧ m.frames = [⟨0, 0, 0⟩] := by
  have hfresh : start.Counted (.basic config false 0) [] fun _ => False :=
    hstart ▸ counted_new config world
  obtain ⟨m', hload, hm'⟩ := load_ok (Exec.resolves_of_load h) hfresh fun _ => by rw [hstart]; rfl
  rw [h] at hload
  cases hload
  exact ⟨hm'.stack, hm'.frames⟩

/-- A program read from bytes and put on a new machine. It is loaded exactly if all the functions
exist that its constants name, those that an instruction defines being there anyway. Its script
begins with no value, where verification began with as many as it has parameters. -/
theorem accepted_enters (bytes : List UInt8) (p : Program) (config : Config) (world : World)
    (haccepted : Program.ofBytes bytes = .ok p) :
    ((∃ m, Exec.load p (new config world) = .ok () m) ↔ p.Resolves) ∧
      (∀ fault m, Exec.load p (new config world) = .error fault m →
        ∃ id, fault = .missingConstant id) ∧
      (∀ f ∈ p.functions.toList, ∀ i ∈ f.chunk.instructions, ∀ index lines k,
        i.operand = .runnable index lines → f.chunk.constant? index = some k → p.Finds k) ∧
      (∀ m, Exec.load p (new config world) = .ok () m → m.stack = #[] ∧ m.frames = [⟨0, 0, 0⟩]) ∧
      ∃ script, p.function? 0 = some script ∧
        (script.chunk.code.size ≠ 0 → p.heightAt? 0 0 = some script.arity) := by
  have hverify := Program.verify_of_ofBytes haccepted
  obtain ⟨⟨script, hscript, _⟩, _⟩ := Program.verify_eq_ok hverify
  refine ⟨⟨?_, ?_⟩, fun _ _ => missing_of_load rfl, ?_, fun _ => load_enters rfl, script, hscript, ?_⟩
  · rintro ⟨m, hload⟩
    exact Exec.resolves_of_load hload
  · intro hresolves
    obtain ⟨m, hload, _⟩ := load_new hresolves rfl
    exact ⟨m, hload⟩
  · intro f hf i hi index lines k hoperand hk
    exact Program.finds_of_defined hverify hf hi hoperand hk
  · exact Program.heightAt?_entry hverify hscript

/-- A script that takes a value off a stack where none is. -/
def starved : List UInt8 :=
  [82, 65, 84, 67, 1, 1, 8, 60, 115, 99, 114, 105, 112, 116, 62, 1, 0, 1, 6, 0, 0, 0]

theorem starved_accepted :
    Program.ofBytes starved = .ok ⟨#[⟨"<script>", 1, #[], ⟨#[6], #[]⟩, none, 0⟩]⟩ := by cbv

/-- Verified from a height of one, the script begins at none. -/
theorem accepted_enters_starved :
    ∃ p m, Program.ofBytes starved = .ok p ∧ Exec.load p (new {} quiet) = .ok () m ∧
      m.stack = #[] ∧ p.heightAt? 0 0 = some 1 := by
  obtain ⟨hloads, _, _, henters, script, hscript, hheight⟩ :=
    accepted_enters starved _ {} quiet starved_accepted
  obtain ⟨m, hload⟩ := hloads.mpr (by decide)
  cases hscript
  exact ⟨_, m, starved_accepted, hload, (henters m hload).1, hheight (by decide)⟩

/-- A script with a constant for a function that is not there. -/
def dangling : List UInt8 :=
  [82, 65, 84, 67, 1, 1, 8, 60, 115, 99, 114, 105, 112, 116, 62, 0, 0, 0, 1, 2, 1, 0, 0]

theorem dangling_accepted :
    Program.ofBytes dangling = .ok ⟨#[⟨"<script>", 0, #[], ⟨#[], #[.runnable 1]⟩, none, 0⟩]⟩ := by
  cbv

/-- Bytes are accepted that cannot be loaded, and others whose script wants a value at once. -/
theorem accepted_fails :
    (∃ p, Program.ofBytes dangling = .ok p ∧
      ((new {} quiet).interpret p 1).1 = .failed ⟨.missingConstant 1, 0⟩) ∧
    ∃ p, Program.ofBytes starved = .ok p ∧
      ((new {} quiet).interpret p 1).1 = .failed ⟨.stackUnderflow, 1⟩ := by
  refine ⟨⟨_, dangling_accepted, ?_⟩, _, starved_accepted, ?_⟩
  · decide +kernel
  · decide +kernel

end Machine
end RatScript
