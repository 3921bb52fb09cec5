import RatScript.Proofs.Machine.Instruction
import RatScript.Proofs.Machine.Session

/-!
One turn of a verified program. Before it every active call stands where verification gave a
height, with its part of the stack that high; after it this is so again, or the turn failed for a
reason that verification does not exclude.
-/

namespace RatScript

open Stateful

namespace Program

/-- Active calls, the innermost first, under a stack of a height. The script stands at a height that
verification gave, or at its end. A runnable has its operands over the cell it was called in, and
its result takes that cell when its caller goes on. -/
def Fits (p : Program) : Nat → List Frame → Prop
  | _, [] => False
  | top, [fr] => fr.function = 0 ∧ fr.base = 0 ∧
      (p.Meets 0 fr.ip top ∨ ∃ f, p.function? 0 = some f ∧ fr.ip = f.chunk.code.size)
  | top, fr :: caller :: rest => fr.function ≠ 0 ∧
      (∃ height, p.Meets fr.function fr.ip height ∧ top = fr.base+1+height) ∧
      p.Fits (fr.base+1) (caller :: rest)

/-- Cells of the stack that belong to the callers of the innermost call, and to the call itself. -/
def floor : List Frame → Nat
  | fr :: _ :: _ => fr.base+1
  | _ => 0

variable {p : Program} {id ip base top height : Nat} {f : Function} {rest : List Frame}

theorem function?_of_fits {fr : Frame} (h : p.Fits top (fr :: rest)) :
    ∃ f, p.function? fr.function = some f := by
  cases rest with
  | nil =>
    obtain ⟨hid, _, ⟨f, hf, _⟩ | ⟨f, hf, _⟩⟩ := h
    · exact ⟨f, hid ▸ hf⟩
    · exact ⟨f, hid ▸ hf⟩
  | cons caller rest =>
    obtain ⟨_, ⟨_, ⟨f, hf, _⟩, _⟩, _⟩ := h
    exact ⟨f, hf⟩

/-- Only the script can be at its end. -/
theorem meets_of_fits (h : p.Fits top (⟨id, ip, base⟩ :: rest)) (hf : p.function? id = some f) :
    (∃ height, p.Meets id ip height ∧ top = floor (⟨id, ip, base⟩ :: rest)+height) ∨
      id = 0 ∧ ip = f.chunk.code.size := by
  cases rest with
  | nil =>
    obtain ⟨hid, _, hmeets | ⟨script, hscript, hend⟩⟩ := h
    · cases hid
      exact .inl ⟨top, hmeets, (Nat.zero_add top).symm⟩
    · cases hid
      rw [hscript] at hf
      cases hf
      exact .inr ⟨rfl, hend⟩
  | cons caller rest =>
    obtain ⟨_, hmeets, _⟩ := h
    exact .inl hmeets

/-- Behind the last instruction there is only the script. -/
theorem zero_of_end (h : p.Fits top (⟨id, ip, base⟩ :: rest)) (hf : p.function? id = some f)
    (hend : f.chunk.code.size ≤ ip) : id = 0 := by
  obtain ⟨height, hmeets, _⟩ | ⟨hid, _⟩ := meets_of_fits h hf
  · obtain ⟨i, next, s⟩ := stop_of_meets hf hmeets
    obtain ⟨byte, hbyte, _⟩ := s.byte
    rw [Array.getElem?_eq_none hend] at hbyte
    cases hbyte
  · exact hid

theorem floor_of_fits (h : p.Fits top (⟨id, ip, base⟩ :: rest)) (hid : id ≠ 0) :
    floor (⟨id, ip, base⟩ :: rest) = base+1 := by
  cases rest with
  | nil => exact absurd h.1 hid
  | cons caller rest => rfl

/-- The innermost call may go wherever verification arrives. -/
theorem fits_arrive (hverify : p.verify = .ok ()) (h : p.Fits top (⟨id, ip, base⟩ :: rest))
    (hf : p.function? id = some f) {a : Nat × Nat} (ha : p.Arrives id f a) :
    p.Fits (floor (⟨id, ip, base⟩ :: rest)+a.2) (⟨id, a.1, base⟩ :: rest) := by
  unfold Arrives at ha
  cases rest with
  | nil =>
    obtain ⟨hid, hbase, _⟩ := h
    cases hid
    refine ⟨rfl, hbase, ?_⟩
    split at ha
    · next hend => exact .inr ⟨f, hf, hend⟩
    · refine .inl ?_
      simpa [floor] using ha
  | cons caller rest =>
    obtain ⟨hid, _, hcallers⟩ := h
    split at ha
    · exact absurd ((isScript_iff hverify hf).mp ha) hid
    · exact ⟨hid, ⟨a.2, ha, rfl⟩, hcallers⟩

end Program

namespace Machine

/-- The name that the next turn calls. -/
def nextCall? (p : Program) (m : Machine) : Option String := do
  let frame ← m.frames.head?
  let f ← p.function? frame.function
  let byte ← f.chunk.code[frame.ip]?
  match Instruction.decode f.chunk.code frame.ip byte with
  | .ok ⟨_, .call, .constant index⟩ => f.identifier? index
  | _ => none

/-- A call in the next turn enters a function of the arity that verification charged for it. -/
def Charged (p : Program) (m : Machine) : Prop :=
  ∀ name ∈ m.nextCall? p, ∀ callee ∈ m.callee? p name,
    (p.runnable? name).map Function.arity = some callee.arity

instance (p : Program) (m : Machine) : Decidable (m.Charged p) :=
  inferInstanceAs (Decidable (∀ name ∈ m.nextCall? p, ∀ callee ∈ m.callee? p name,
    (p.runnable? name).map Function.arity = some callee.arity))

/-- In the middle of a run of a verified program. -/
def Obeys (z : Setting) (p : Program) (pools : Array (Array Value)) (m : Machine) : Prop :=
  m.Poised z pools m.stack.size m.frames ∧ p.Fits m.stack.size m.frames

theorem obeys_of_poised {z : Setting} {p : Program} {pools : Array (Array Value)} {top : Nat}
    {frames : List Frame} {m : Machine} (hm : m.Poised z pools top frames)
    (hfits : p.Fits top frames) : m.Obeys z p pools := by
  have hsize := hm.2.size
  have hframes := hm.2.frames
  subst hsize hframes
  exact ⟨hm, hfits⟩

end Machine

namespace Exec

open Machine

variable {p : Program} {z : Setting} {pools : Array (Array Value)} {fs rest : List Frame}
  {id ip base height top n : Nat} {f : Function} {i : Instruction} {next : List (Nat × Nat)}

theorem readByte_eq {m : Machine} {code : Array UInt8} {byte : UInt8}
    (hm : m.frames = ⟨id, ip, base⟩ :: rest) (hbyte : code[ip]? = some byte) :
    readByte code m = .ok byte {m with frames := ⟨id, ip+1, base⟩ :: rest} := by
  simp only [readByte, frame, setIp, bind, EStateM.bind, get, getThe, MonadStateOf.get, EStateM.get,
    hm, pure, EStateM.pure, hbyte, modify, modifyGet, MonadStateOf.modifyGet, EStateM.modifyGet]

theorem poised_advance {m : Machine} (hm : m.Poised z pools n (⟨id, ip, base⟩ :: rest)) :
    ({m with frames := ⟨id, ip+1, base⟩ :: rest} : Machine).Poised z pools n
      (⟨id, ip+1, base⟩ :: rest) := by
  have hframes := hm.2.frames
  refine ⟨hm.1.move rfl rfl hm.1.pinned rfl (fun _ => rfl) hm.1.named hm.1.room ?_,
    hm.2.size, rfl, hm.2.pools, hm.2.stack, hm.2.globals⟩
  intro g hg
  have hbases := hm.1.bases
  rw [hframes] at hbases
  rcases List.mem_cons.mp hg with rfl | hg
  · exact hbases ⟨id, ip, base⟩ (List.mem_cons_self ..)
  · exact hbases g (List.mem_cons_of_mem _ hg)

/-- A step executes the operation at the pointer, which is moved behind it first. -/
theorem step_does {Q : Unit → Machine → Prop} (s : p.Stop id f ip height i next) {m : Machine}
    (hm : m.Poised z pools n (⟨id, ip, base⟩ :: rest))
    (hx : Does (· = {m with frames := ⟨id, ip+1, base⟩ :: rest}) (execute p id f i.op) Q) :
    Does (· = m) (step p id f) Q := by
  obtain ⟨byte, hbyte, hdecode⟩ := s.byte
  have hread := readByte_eq hm.2.frames hbyte
  have hop := (Instruction.decode_eq_ok hdecode).1
  intro m' hm'
  subst m'
  have h := hx _ rfl
  simp only [step, bind, EStateM.bind, hread, hop]
  exact h

theorem call_stop (s : p.Stop id f ip height i next) (hop : i.op = .call) :
    ∃ index name charged, f.chunk.code[ip+1]? = some index ∧ i.operand = .constant index ∧
      f.identifier? index = some name ∧ p.runnable? name = some charged ∧
      charged.arity+1 ≤ height ∧ next = [(ip+2, height-(charged.arity+1)+1)] := by
  have hspelt := s.spelt
  rw [hop] at hspelt
  obtain ⟨index, hindex, hoperand⟩ := hspelt
  have hsuccessors := s.successors
  obtain ⟨e, he, _⟩ := Survey.successors_eq_ok.mp hsuccessors
  have he' := he
  simp only [Survey.effect, hop, hoperand] at he'
  cases hname : (p.surveyOf f).function.identifier? index with
  | none => simp [hname] at he'
  | some name =>
    cases hcharged : (p.surveyOf f).program.runnable? name with
    | none => simp [hname, hcharged] at he'
    | some charged =>
      simp only [hname, hcharged, Except.ok.injEq] at he'
      subst he'
      obtain ⟨hpops, hnext⟩ := s.straight (by rw [hop]; rfl) he
      rw [hop] at hnext
      exact ⟨index, name, charged, hindex, hoperand, hname, hcharged, hpops, hnext⟩

theorem nextCall?_eq (s : p.Stop id f ip height i next) (hf : p.function? id = some f)
    (hop : i.op = .call) {index : UInt8} {name : String} (hoperand : i.operand = .constant index)
    (hname : f.identifier? index = some name) {m : Machine}
    (hm : m.frames = ⟨id, ip, base⟩ :: rest) : m.nextCall? p = some name := by
  obtain ⟨byte, hbyte, hdecode⟩ := s.byte
  obtain ⟨offset, op, operand⟩ := i
  simp only at hop hoperand
  subst hop hoperand
  simp [nextCall?, hm, hf, hbyte, hdecode, hname]

/-- A call enters a runnable at its start, over the cells of the caller, which goes on one cell over
the base. -/
theorem step_call_enters (hz : z.Loads p pools) (hverify : p.verify = .ok ())
    (hf : p.function? id = some f) (hfits : p.Fits top (⟨id, ip, base⟩ :: rest))
    (s : p.Stop id f ip height i next) (hop : i.op = .call)
    (htop : top = Program.floor (⟨id, ip, base⟩ :: rest)+height) {m : Machine}
    (hm : m.Poised z pools top (⟨id, ip, base⟩ :: rest)) (hcharged : m.Charged p) :
    Does (· = m) (step p id f) fun _ m' => ∃ function callee bottom,
      p.function? function = some callee ∧ function ≠ 0 ∧ top = bottom+1+callee.arity ∧
      Program.floor (⟨id, ip, base⟩ :: rest) ≤ bottom ∧
      (∃ a ∈ next, a.1 = ip+2 ∧ bottom+1 = Program.floor (⟨id, ip, base⟩ :: rest)+a.2) ∧
      p.Fits (bottom+1) (⟨id, ip+2, base⟩ :: rest) ∧
      m'.Poised z pools top (⟨function, 0, bottom⟩ :: ⟨id, ip+2, base⟩ :: rest) := by
  obtain ⟨index, name, charged, hindex, hoperand, hname, hrunnable, harity, hnext⟩ :=
    call_stop s hop
  have hcallee : ∀ callee, m.callee? p name = some callee → callee.arity = charged.arity := by
    intro callee hcallee
    have h := hcharged name (nextCall?_eq s hf hop hoperand hname hm.2.frames) callee hcallee
    rw [hrunnable] at h
    exact (Option.some.inj h).symm
  -- the pointer moves behind the operand before the call is made
  have hread := readByte_eq (poised_advance hm).2.frames hindex
  have hbehind := poised_advance (poised_advance hm)
  have hidentifier : identifier f {m with frames := ⟨id, ip+1, base⟩ :: rest} =
      .ok name {m with frames := ⟨id, ip+2, base⟩ :: rest} := by
    simp only [identifier, bind, EStateM.bind, hread, hname]
    rfl
  have hmem : (ip+2, height-(charged.arity+1)+1) ∈ next := hnext ▸ List.mem_singleton_self _
  have harrives : p.Arrives id f (ip+2, height-(charged.arity+1)+1) := s.onward _ hmem
  have hcaller := Program.fits_arrive hverify hfits hf harrives
  have hn : top = Program.floor (⟨id, ip, base⟩ :: rest)+(height-(charged.arity+1))+
      (charged.arity+1) := by omega
  apply step_does s hm
  rw [hop]
  intro m' hm'
  subst m'
  simp only [execute, bind, EStateM.bind, hidentifier]
  refine (call_does hz hn).mono (fun _ h => h) ?_ _ ⟨hbehind, hcallee⟩
  intro _ m' hm'
  obtain ⟨function, callee, hfunction, hscript, hsame, hm'⟩ := hm'
  exact ⟨function, callee, Program.floor (⟨id, ip, base⟩ :: rest)+(height-(charged.arity+1)), hfunction,
    hscript, by omega, by omega, ⟨_, hmem, rfl, by simp only [Nat.add_assoc]⟩,
    by simpa only [Nat.add_assoc] using hcaller, hm'⟩

theorem step_call_does (hz : z.Loads p pools) (hverify : p.verify = .ok ())
    (hf : p.function? id = some f) (hfits : p.Fits top (⟨id, ip, base⟩ :: rest))
    (s : p.Stop id f ip height i next) (hop : i.op = .call)
    (htop : top = Program.floor (⟨id, ip, base⟩ :: rest)+height) {m : Machine}
    (hm : m.Poised z pools top (⟨id, ip, base⟩ :: rest)) (hcharged : m.Charged p) :
    Does (· = m) (step p id f) fun _ => Obeys z p pools := by
  refine (step_call_enters hz hverify hf hfits s hop htop hm hcharged).mono (fun _ h => h) ?_
  intro _ m' hm'
  obtain ⟨function, callee, bottom, hfunction, hscript, htop, _, _, hcaller, hm'⟩ := hm'
  refine obeys_of_poised hm' ⟨hscript, ⟨callee.arity, ?_, htop⟩, hcaller⟩
  have hentry := Program.arrives_entry hverify hfunction
  unfold Program.Arrives at hentry
  split at hentry
  · exact absurd ((Program.isScript_iff hverify hfunction).mp hentry) hscript
  · exact hentry

/-- A return leaves the caller as it is, with one cell at the base. -/
theorem step_ret_leaves (s : p.Stop id f ip height i next) (hop : i.op = .ret)
    (htop : top = Program.floor (⟨id, ip, base⟩ :: rest)+height) {m : Machine}
    (hm : m.Poised z pools top (⟨id, ip, base⟩ :: rest)) :
    Does (· = m) (step p id f) fun _ m' => rest ≠ [] ∧ base < top ∧
      m'.Poised z pools (base+1) rest := by
  obtain ⟨e, he, hpops, _⟩ := Survey.successors_eq_ok.mp s.successors
  rw [Survey.effect_eq (by simp [hop]) (by simp [hop]), hop] at he
  cases he
  have hpos : 1 ≤ height := hpops
  obtain ⟨k, hk⟩ : ∃ k, top = k+1 := ⟨top-1, by omega⟩
  subst hk
  apply step_does s hm
  rw [hop]
  cases rest with
  | nil =>
    exact Does.start (poised_advance hm) (ret_script_does.mono (fun _ h => h) fun _ _ h => h.elim)
  | cons caller rest =>
    have hbase : base ≤ k := by
      simp only [Program.floor] at htop
      omega
    refine Does.start (poised_advance hm) ((ret_does hbase).mono (fun _ h => h) ?_)
    exact fun _ m' hm' => ⟨List.cons_ne_nil _ _, by omega, hm'⟩

theorem step_ret_does (hfits : p.Fits top (⟨id, ip, base⟩ :: rest))
    (s : p.Stop id f ip height i next) (hop : i.op = .ret)
    (htop : top = Program.floor (⟨id, ip, base⟩ :: rest)+height) {m : Machine}
    (hm : m.Poised z pools top (⟨id, ip, base⟩ :: rest)) :
    Does (· = m) (step p id f) fun _ => Obeys z p pools := by
  refine (step_ret_leaves s hop htop hm).mono (fun _ h => h) ?_
  intro _ m' hm'
  obtain ⟨hrest, _, hm'⟩ := hm'
  cases rest with
  | nil => exact absurd rfl hrest
  | cons caller rest => exact obeys_of_poised hm' hfits.2.2

/-- Any other instruction goes on within the call. -/
theorem step_onward (hz : z.Loads p pools) (hverify : p.verify = .ok ())
    (hf : p.function? id = some f) (hfits : p.Fits top (⟨id, ip, base⟩ :: rest))
    (s : p.Stop id f ip height i next) (hcall : i.op ≠ .call) (hret : i.op ≠ .ret)
    (htop : top = Program.floor (⟨id, ip, base⟩ :: rest)+height) {m : Machine}
    (hm : m.Poised z pools top (⟨id, ip, base⟩ :: rest)) :
    Does (· = m) (step p id f) fun _ =>
      Onward z pools (Program.floor (⟨id, ip, base⟩ :: rest)) base id rest next := by
  have hfloor : f.isScript = false → Program.floor (⟨id, ip, base⟩ :: rest) = base+1 := by
    intro hscript
    apply Program.floor_of_fits hfits
    intro hid
    rw [(Program.isScript_iff hverify hf).mpr hid] at hscript
    cases hscript
  subst htop
  apply step_does s hm
  exact Does.start (poised_advance hm) (execute_does hz hverify hf hfloor s hcall hret)

/-- A step in the code keeps the heights. -/
theorem step_obeys (hz : z.Loads p pools) (hverify : p.verify = .ok ())
    (hf : p.function? id = some f) (hfits : p.Fits top (⟨id, ip, base⟩ :: rest))
    (hip : ip < f.chunk.code.size) {m : Machine}
    (hm : m.Poised z pools top (⟨id, ip, base⟩ :: rest)) (hcharged : m.Charged p) :
    Does (· = m) (step p id f) fun _ => Obeys z p pools := by
  obtain ⟨height, hmeets, htop⟩ | ⟨_, hend⟩ := Program.meets_of_fits hfits hf
  · obtain ⟨i, next, s⟩ := Program.stop_of_meets hf hmeets
    by_cases hcall : i.op = .call
    · exact step_call_does hz hverify hf hfits s hcall htop hm hcharged
    by_cases hret : i.op = .ret
    · exact step_ret_does hfits s hret htop hm
    refine (step_onward hz hverify hf hfits s hcall hret htop hm).mono (fun _ h => h) ?_
    intro _ m' hm'
    obtain ⟨a, ha, hm'⟩ := hm'
    exact obeys_of_poised hm' (Program.fits_arrive hverify hfits hf (s.onward a ha))
  · omega

theorem trace_does (offset : Nat) : Does (Poised z pools n fs) (trace offset)
    fun _ => Poised z pools n fs := by
  have htrace := trace_keeps (z := z) (X := []) (S := fun _ => True) offset
  refine Does.lift ?_
  apply Does.get_bind
  intro m _
  refine Does.bind (ask_does _) fun cells => Does.bind (Q := fun _ => Shape z pools n fs)
    (fun m hm => shape_world hm _) fun ok => ?_
  cases ok
  · exact Does.throw rfl
  · exact Does.pure fun _ h => h

end Exec

namespace Machine

variable {p : Program} {z : Setting} {pools : Array (Array Value)} {m : Machine}

/-- A run goes on with heights as verification gave them, or does not end in a fault that
verification excludes. -/
def Upholds (z : Setting) (p : Program) (pools : Array (Array Value)) : Outcome × Machine → Prop
  | (.running, m) => m.Obeys z p pools
  | (.finished, _) => True
  | (.failed failure, _) => failure.fault.isStructural = false

theorem advance_upholds (hz : z.Loads p pools) (hverify : p.verify = .ok ())
    (hm : m.Obeys z p pools) (hcharged : m.Charged p) : Upholds z p pools (m.advance p) := by
  obtain ⟨hm, hfits⟩ := hm
  unfold advance
  cases hframes : m.frames with
  | nil =>
    rw [hframes] at hfits
    exact hfits.elim
  | cons fr rest =>
    rw [hframes] at hfits hm
    obtain ⟨f, hf⟩ := Program.function?_of_fits hfits
    simp only [hf]
    split
    · next hend =>
      split
      · trivial
      · next hscript =>
        exact absurd ((Program.isScript_iff hverify hf).mpr (Program.zero_of_end hfits hf hend))
          hscript
    · next hip =>
      have hstep := Exec.step_obeys hz hverify hf hfits (by omega) hm hcharged m rfl
      split
      · next hs =>
        rw [hs] at hstep
        exact hstep
      · next m' hs =>
        rw [hs] at hstep
        split
        · have htrace := Exec.trace_does fr.ip m' hstep.1
          split
          · next ht =>
            rw [ht] at htrace
            exact htrace
          · next ht =>
            rw [ht] at htrace
            exact obeys_of_poised htrace hstep.2
        · exact hstep

end Machine
end RatScript
