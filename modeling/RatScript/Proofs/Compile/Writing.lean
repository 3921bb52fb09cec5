import RatScript.Proofs.Compile.Growth
import RatScript.Proofs.Compile.Reports

/-!
What the compiler writes: bytes behind the code of the current function, constants behind its
constants, and functions, finished, behind the other functions.
-/

set_option synthInstance.maxSize 65536

namespace RatScript

open Stateful

/-- A runnable with a body that takes its arguments to some height and then returns. Slots can name
its arguments, and no native has its name. -/
structure Function.Finished (p : Program) (id : Nat) (f : Function) : Prop where
  enclosed : ∃ parent, f.enclosing = some parent ∧ parent < id
  slots : f.arity ≤ Compile.maxLocals
  named : Native.ofName? f.name = none
  body : ∃ (c : Phrase) (k : Nat),
    f.chunk.code.toList = Directive.encode (c.directives++Program.epilogue) ∧
    c.Takes p f f.arity k

theorem Function.Finished.mono {p q : Program} {id : Nat} {f g : Function}
    (h : f.Finished p id) (hp : p.Grows q) (hf : f.Grows g)
    (hcode : g.chunk.code = f.chunk.code) : g.Finished q id := by
  obtain ⟨c, k, hc, ht⟩ := h.body
  refine ⟨hf.enclosing ▸ h.enclosed, hf.arity ▸ h.slots, hf.name ▸ h.named, c, k,
    by rw [hcode, hc], ?_⟩
  rw [hf.arity]
  exact ht.mono hp hf

namespace Builder

def program (b : Builder) : Program := ⟨b.functions⟩

/-- The function being compiled. -/
def function (b : Builder) : Function := b.functions[b.current]?.getD default

def written (b : Builder) : List UInt8 := b.function.chunk.code.toList

/-- The function being compiled is there, one byte can name its constants, and it is the script if
it is the first. All runnables among the constants are there. -/
structure Ready (b : Builder) : Prop where
  there : b.current < b.functions.size
  pool : b.function.chunk.constants.size ≤ Chunk.capacity
  script : b.function.isScript = !b.inRunnable
  declared : ∀ (id : Nat) (f : Function), b.functions[id]? = some f →
    ∀ callee, .runnable callee ∈ f.chunk.constants.toList → 0 < callee ∧ callee < b.functions.size

theorem Ready.here {b : Builder} (h : b.Ready) : b.functions[b.current]? = some b.function := by
  rw [function, Array.getElem?_eq_getElem h.there]
  rfl

theorem Ready.callees {b : Builder} (h : b.Ready) (callee : Nat)
    (hc : .runnable callee ∈ b.function.chunk.constants.toList) :
    0 < callee ∧ callee < b.functions.size :=
  h.declared _ _ h.here callee hc

theorem Ready.chunk {b : Builder} (h : b.Ready) : b.chunk = b.function.chunk := by
  rw [Builder.chunk, h.here]

theorem chunk_modifyChunk {b : Builder} (h : b.current < b.functions.size) (f : Chunk → Chunk) :
    (b.modifyChunk f).chunk = f b.chunk := by
  rw [modifyChunk, modifyFunction, chunk, chunk, Array.getElem?_modify, if_pos rfl,
    Array.getElem?_eq_getElem h]
  rfl

/-- The program and its current function grow. -/
structure Grows (b b' : Builder) : Prop where
  program : b.program.Grows b'.program
  function : b.function.Grows b'.function

theorem Grows.trans {b b' b'' : Builder} (h : b.Grows b') (k : b'.Grows b'') : b.Grows b'' :=
  ⟨h.program.trans k.program, h.function.trans k.function⟩

/-- From one state to another, bytes are written behind the code of the current function. -/
structure Writes (b b' : Builder) (bytes : List UInt8) : Prop where
  ready : b'.Ready
  current : b'.current = b.current
  grows : b.program.Grows b'.program
  code : b'.written = b.written++bytes
  kept : ∀ id < b.functions.size, id ≠ b.current → b'.functions[id]? = b.functions[id]?
  fresh : ∀ (id : Nat) (f : Function), b.functions.size ≤ id → b'.functions[id]? = some f →
    f.Finished b'.program id

namespace Writes

variable {b b' b'' : Builder} {bytes more : List UInt8}

theorem inRunnable (h : b.Writes b' bytes) : b'.inRunnable = b.inRunnable := by
  rw [Builder.inRunnable, Builder.inRunnable, h.current]

theorem toGrows (h : b.Writes b' bytes) (hb : b.Ready) : b.Grows b' := by
  refine ⟨h.grows, ?_⟩
  obtain ⟨g, hg, hgrows⟩ := h.grows _ _ hb.here
  have hg' : b'.functions[b'.current]? = some g := h.current ▸ hg
  rw [h.ready.here] at hg'
  cases hg'
  exact hgrows

theorem size_le (h : b.Writes b' bytes) : b.functions.size ≤ b'.functions.size := h.grows.size_le

/-- Where the functions are the same nothing is written. -/
theorem same (hb : b.Ready) (hf : b'.functions = b.functions) (hc : b'.current = b.current) :
    b.Writes b' [] := by
  have hfun : b'.function = b.function := by rw [function, function, hf, hc]
  refine ⟨⟨?_, hfun ▸ hb.pool, ?_, hf ▸ hb.declared⟩, hc, ?_, ?_, fun _ _ _ => by rw [hf], ?_⟩
  · rw [hc, hf]
    exact hb.there
  · rw [hfun, hb.script, Builder.inRunnable, Builder.inRunnable, hc]
  · rw [program, program, hf]
    exact .refl _
  · rw [written, written, hfun, List.append_nil]
  · intro id f hid hg
    rw [hf] at hg
    have := (Array.getElem?_eq_some_iff.mp hg).1
    omega

theorem refl (h : b.Ready) : b.Writes b [] := same h rfl rfl

theorem trans (h : b.Writes b' bytes) (k : b'.Writes b'' more) (hb : b.Ready) :
    b.Writes b'' (bytes++more) where
  ready := k.ready
  current := k.current.trans h.current
  grows := h.grows.trans k.grows
  code := by rw [k.code, h.code, List.append_assoc]
  kept id hid hne := by
    have hle := h.size_le
    rw [k.kept id (by omega) (by rw [h.current]; exact hne), h.kept id hid hne]
  fresh id f hid hf := by
    have hthere := hb.there
    by_cases hlt : id < b'.functions.size
    · rw [k.kept id hlt (by rw [h.current]; omega)] at hf
      exact (h.fresh id f hid hf).mono k.grows (.refl f) rfl
    · exact k.fresh id f (by omega) hf

end Writes

/-- The current function is edited: what was written stays or is written anew. -/
theorem Writes.edit {b b' b'' : Builder} {bytes bytes' : List UInt8} (hb : b.Ready)
    (h : b.Writes b' bytes) (edit : Function → Function) (hcurrent : b''.current = b'.current)
    (hfunctions : b''.functions = b'.functions.modify b'.current edit)
    (hgrows : b'.function.Grows (edit b'.function))
    (hcode : (edit b'.function).chunk.code.toList = b.written++bytes')
    (hpool : (edit b'.function).chunk.constants.size ≤ Chunk.capacity)
    (hdeclared : ∀ callee, .runnable callee ∈ (edit b'.function).chunk.constants.toList →
      0 < callee ∧ callee < b'.functions.size) :
    b.Writes b'' bytes' ∧ b''.function = edit b'.function ∧ b'.Grows b'' := by
  have hfun : b''.function = edit b'.function := by
    rw [Builder.function, hcurrent, hfunctions, Array.getElem?_modify, if_pos rfl, h.ready.here]
    rfl
  have hother (id : Nat) (hne : id ≠ b'.current) : b''.functions[id]? = b'.functions[id]? := by
    rw [hfunctions, Array.getElem?_modify, if_neg (Ne.symm hne)]
  have hprogram : b'.program.Grows b''.program := by
    intro id f hf
    by_cases hid : id = b'.current
    · subst hid
      change b'.functions[b'.current]? = some f at hf
      rw [h.ready.here] at hf
      cases hf
      refine ⟨edit b'.function, ?_, hgrows⟩
      change b''.functions[b'.current]? = _
      rw [hfunctions, Array.getElem?_modify, if_pos rfl, h.ready.here]
      rfl
    · exact ⟨f, (hother id hid).trans hf, .refl f⟩
  have hthere := hb.there
  refine ⟨⟨⟨?_, hfun ▸ hpool, ?_, ?_⟩, hcurrent.trans h.current, h.grows.trans hprogram, ?_, ?_, ?_⟩,
    hfun, hprogram, hfun ▸ hgrows⟩
  · rw [hcurrent, hfunctions, Array.size_modify]
    exact h.ready.there
  · rw [hfun, hgrows.isScript, h.ready.script, Builder.inRunnable, Builder.inRunnable, hcurrent]
  · intro id f hf
    rw [hfunctions, Array.size_modify]
    by_cases hid : id = b'.current
    · rw [hfunctions, Array.getElem?_modify, if_pos hid.symm, hid, h.ready.here] at hf
      cases hf
      exact hdeclared
    · exact h.ready.declared id f ((hother id hid).symm.trans hf)
  · rw [written, hfun, hcode]
  · intro id hid hne
    rw [hother id (by rw [h.current]; exact hne), h.kept id hid hne]
  · intro id f hid hf
    rw [hother id (by rw [h.current]; omega)] at hf
    exact (h.fresh id f hid hf).mono hprogram (.refl f) rfl

/-- Bytes are written and the locals in scope stay the same. -/
structure Lays (b b' : Builder) (bytes : List UInt8) : Prop extends b.Writes b' bytes where
  locals : b'.locals = b.locals
  depth : b'.depth = b.depth

theorem Lays.refl {b : Builder} (h : b.Ready) : b.Lays b [] := ⟨.refl h, rfl, rfl⟩

theorem Lays.trans {b b' b'' : Builder} {bytes more : List UInt8} (h : b.Lays b' bytes)
    (k : b'.Lays b'' more) (hb : b.Ready) : b.Lays b'' (bytes++more) where
  toWrites := h.toWrites.trans k.toWrites hb
  locals := k.locals.trans h.locals
  depth := k.depth.trans h.depth

/-- The chunk of the current function is edited. -/
theorem Lays.edit {b b' : Builder} {bytes bytes' : List UInt8} (hb : b.Ready)
    (h : b.Lays b' bytes) (edit : Chunk → Chunk)
    (hconstants : b'.function.chunk.constants.toList <+:
      (edit b'.function.chunk).constants.toList)
    (hcode : (edit b'.function.chunk).code.toList = b.written++bytes')
    (hpool : (edit b'.function.chunk).constants.size ≤ Chunk.capacity)
    (hdeclared : ∀ callee, .runnable callee ∈ (edit b'.function.chunk).constants.toList →
      0 < callee ∧ callee < b'.functions.size) :
    b.Lays (b'.modifyChunk edit) bytes' ∧
    (b'.modifyChunk edit).function.chunk = edit b'.function.chunk ∧
    b'.Grows (b'.modifyChunk edit) := by
  have hcurrent : (b'.modifyChunk edit).current = b'.current := rfl
  obtain ⟨hwrites, hfun, hgrows⟩ := h.toWrites.edit hb (fun g => {g with chunk := edit g.chunk})
    hcurrent rfl ⟨rfl, rfl, rfl, hconstants⟩ hcode hpool hdeclared
  exact ⟨⟨hwrites, h.locals, h.depth⟩, by rw [hfun], hgrows⟩

/-- Nothing but tokens is read. -/
structure Still (b b' : Builder) : Prop where
  functions : b'.functions = b.functions
  current : b'.current = b.current
  locals : b'.locals = b.locals
  depth : b'.depth = b.depth

instance : Std.Refl Still := ⟨fun _ => ⟨rfl, rfl, rfl, rfl⟩⟩

instance : Trans Still Still Still :=
  ⟨fun h k => ⟨k.1.trans h.1, k.2.trans h.2, k.3.trans h.3, k.4.trans h.4⟩⟩

theorem Still.lays {b b' : Builder} (h : b.Still b') (hb : b.Ready) : b.Lays b' [] :=
  ⟨.same hb h.functions h.current, h.locals, h.depth⟩

end Builder

/-- A chunk gets a constant, under an index that names it, and keeps all others. -/
structure Chunk.Gains (chunk chunk' : Chunk) (index : UInt8) (c : Constant) : Prop where
  code : chunk'.code = chunk.code
  constants : chunk.constants.toList <+: chunk'.constants.toList
  pool : chunk'.constants.size ≤ capacity
  named : chunk'.constant? index = some c
  only : ∀ k ∈ chunk'.constants.toList, k ∈ chunk.constants.toList ∨ k = c

namespace Chunk

theorem addConstant_gains {chunk chunk' : Chunk} {c : Constant} {index : UInt8}
    (h : chunk.addConstant c = .ok (chunk', index)) : chunk.Gains chunk' index c := by
  unfold addConstant at h
  split at h
  · next hlt =>
    cases h
    have hmod : chunk.constants.size%256 = chunk.constants.size := Nat.mod_eq_of_lt hlt
    refine ⟨rfl, by simp, by simpa using Nat.succ_le_of_lt hlt, ?_, by simp⟩
    simp [constant?, hmod]
  · cases h

theorem addText_gains {chunk chunk' : Chunk} {content : String} {index : UInt8}
    (hpool : chunk.constants.size ≤ capacity) (h : chunk.addText content = .ok (chunk', index)) :
    chunk.Gains chunk' index (.text content) := by
  unfold addText at h
  split at h
  · next i hi =>
    cases h
    obtain ⟨hlt, hc, _⟩ := Array.findIdx?_eq_some_iff_getElem.mp hi
    have hmod : i%256 = i := Nat.mod_eq_of_lt (Nat.lt_of_lt_of_le hlt hpool)
    refine ⟨rfl, List.prefix_rfl, hpool, ?_, fun _ => .inl⟩
    simpa [constant?, hmod, hlt] using hc
  · exact addConstant_gains h

theorem addNumber_gains {chunk chunk' : Chunk} {literal : String} {index : UInt8}
    (h : chunk.addNumber literal = .ok (chunk', index)) :
    ∃ value, Number.parseFinite? literal = some value ∧ chunk.Gains chunk' index (.number value) := by
  unfold addNumber at h
  split at h
  · next value hvalue => exact ⟨value, hvalue, addConstant_gains h⟩
  · cases h

theorem toList_append (chunk : Chunk) (bytes : List UInt8) :
    (chunk.append bytes).code.toList = chunk.code.toList++bytes := by
  simp [append]

theorem size_append (chunk : Chunk) (bytes : List UInt8) :
    (chunk.append bytes).code.size = chunk.code.size+bytes.length := by
  rw [← Array.length_toList, toList_append, List.length_append, Array.length_toList]

/-- A patch replaces the two bytes behind the front. -/
theorem toList_patch {chunk : Chunk} {front rest : List UInt8} {x y : UInt8}
    (h : chunk.code.toList = front++x :: y :: rest) (distance : UInt16) :
    (chunk.patch front.length distance).code.toList =
      front++Word.high distance :: Word.low distance :: rest := by
  simp [patch, h, List.set_cons_succ]

end Chunk

namespace Compile

open Builder (Still)

section
variable {α : Type} {b b' b'' : Builder} {a : α}

/-- What a step that only reads tokens leaves. -/
theorem still_of_ok {x : Compile α} [h : Keeps Still x] (hx : x b = .ok a b') : b.Still b' :=
  h.of_ok hx

theorem still_modify {f : Builder → Builder} (h : ∀ b : Builder, b.Still (f b)) :
    Keeps Still (modify f : Compile Unit) :=
  Keeps.modify h

instance : Keeps Still advance := still_modify fun b => by
  unfold Builder.advance
  split <;> exact ⟨rfl, rfl, rfl, rfl⟩

end

section
variable {b b' b'' : Builder}

theorem emitBytes_lays {bytes : List UInt8} {a : Unit} (hb : b.Ready)
    (h : emitBytes bytes b = .ok a b') : b.Lays b' bytes := by
  cases modify_eq_ok.mp h
  exact ((Builder.Lays.refl hb).edit hb _ List.prefix_rfl (Chunk.toList_append _ _) hb.pool
    hb.callees).1

theorem enter_lays {add : Chunk → Except PoolFault (Chunk × UInt8)} {index : UInt8}
    {P : Constant → Prop} (hb : b.Ready) (h : enter add b = .ok index b')
    (hadd : ∀ chunk', add b.function.chunk = .ok (chunk', index) →
      ∃ c, P c ∧ b.function.chunk.Gains chunk' index c)
    (hP : ∀ callee, P (.runnable callee) → 0 < callee ∧ callee < b.functions.size) :
    b.Lays b' [] ∧ ∃ c, P c ∧ b'.function.chunk.constant? index = some c := by
  obtain ⟨_, _, hget, h⟩ := bind_eq_ok.mp h
  obtain ⟨rfl, rfl⟩ := get_eq_ok.mp hget
  rw [hb.chunk] at h
  cases hchunk : add b.function.chunk with
  | error fault =>
    simp only [hchunk] at h
    exact absurd h throw_ne_ok
  | ok r =>
    obtain ⟨chunk, i⟩ := r
    simp only [hchunk] at h
    obtain ⟨_, _, hset, h⟩ := bind_eq_ok.mp h
    cases set_eq_ok.mp hset
    obtain ⟨rfl, rfl⟩ := pure_eq_ok.mp h
    obtain ⟨c, hc, hgains⟩ := hadd chunk hchunk
    have hcode : chunk.code.toList = b.written++[] := by
      rw [hgains.code, List.append_nil, Builder.written]
    have hdeclared (callee : Nat) (hcallee : .runnable callee ∈ chunk.constants.toList) :
        0 < callee ∧ callee < b.functions.size := by
      rcases hgains.only _ hcallee with hold | rfl
      · exact hb.callees callee hold
      · exact hP callee hc
    obtain ⟨hlays, hnew, _⟩ := (Builder.Lays.refl hb).edit hb (fun _ => chunk) hgains.constants hcode
      hgains.pool hdeclared
    refine ⟨hlays, c, hc, ?_⟩
    rw [hnew]
    exact hgains.named

theorem textConstant_lays {content : String} {index : UInt8} (hb : b.Ready)
    (h : textConstant content b = .ok index b') :
    b.Lays b' [] ∧ b'.function.identifier? index = some content := by
  obtain ⟨hlays, c, rfl, hc⟩ := enter_lays (P := (· = .text content)) hb h
    (fun _ hadd => ⟨_, rfl, Chunk.addText_gains hb.pool hadd⟩) nofun
  exact ⟨hlays, by rw [Function.identifier?, hc]⟩

theorem offset_eq_ok {n : Nat} (hb : b.Ready) (h : offset b = .ok n b') :
    n = b.written.length ∧ b = b' := by
  obtain ⟨_, _, hget, h⟩ := bind_eq_ok.mp h
  obtain ⟨rfl, rfl⟩ := get_eq_ok.mp hget
  obtain ⟨rfl, rfl⟩ := pure_eq_ok.mp h
  rw [hb.chunk, Builder.written, Array.length_toList]
  exact ⟨rfl, rfl⟩

theorem emitJump_lays {op : Opcode} {at_ : Nat} (hb : b.Ready) (h : emitJump op b = .ok at_ b') :
    b.Lays b' [op.toByte, 0xff, 0xff] ∧ at_ = b.written.length+1 := by
  obtain ⟨_, _, hemit, h⟩ := bind_eq_ok.mp h
  obtain ⟨_, _, hoffset, h⟩ := bind_eq_ok.mp h
  have hlays := emitBytes_lays hb hemit
  obtain ⟨rfl, rfl⟩ := offset_eq_ok hlays.ready hoffset
  obtain ⟨rfl, rfl⟩ := pure_eq_ok.mp h
  refine ⟨hlays, ?_⟩
  rw [hlays.code]
  simp

theorem ofNat?_eq_some {n : Nat} {w : UInt16} (h : Word.ofNat? n = some w) :
    n < 0x10000 ∧ w = UInt16.ofNat n := by
  unfold Word.ofNat? at h
  split at h
  · next hlt =>
    cases h
    exact ⟨hlt, rfl⟩
  · cases h

/-- A patched jump leads over what was written behind it. -/
theorem patchJump_lays {at_ n : Nat} {a : Unit} {front rest : List UInt8} {x y : UInt8}
    (hb : b.Ready) (hl : b.Lays b' (front++x :: y :: rest))
    (hat : at_ = b.written.length+front.length) (hn : rest.length = n)
    (h : patchJump at_ b' = .ok a b'') :
    n < 0x10000 ∧ b'.Grows b'' ∧
    b.Lays b'' (front++Word.high (.ofNat n) :: Word.low (.ofNat n) :: rest) := by
  obtain ⟨_, _, hoffset, h⟩ := bind_eq_ok.mp h
  obtain ⟨rfl, rfl⟩ := offset_eq_ok hl.ready hoffset
  have hdistance : b'.written.length-(at_+2) = n := by
    rw [hl.code, hat, ← hn]
    simp
    omega
  rw [hdistance] at h
  cases hw : Word.ofNat? n with
  | none =>
    simp only [hw] at h
    obtain ⟨_, _, _, h⟩ := bind_eq_ok.mp h
    exact absurd h throw_ne_ok
  | some w =>
    obtain ⟨hlt, rfl⟩ := ofNat?_eq_some hw
    simp only [hw] at h
    cases modify_eq_ok.mp h
    have hcode : b'.function.chunk.code.toList = (b.written++front)++x :: y :: rest := by
      rw [List.append_assoc]
      exact hl.code
    have hpatch := Chunk.toList_patch hcode (UInt16.ofNat n)
    rw [List.length_append, ← hat, List.append_assoc] at hpatch
    obtain ⟨hlays, _, hgrows⟩ := hl.edit hb (·.patch at_ (.ofNat n)) List.prefix_rfl
      hpatch hl.ready.pool hl.ready.callees
    exact ⟨hlt, hgrows, hlays⟩

/-- A loop leads back over what was written since its start, and over itself. -/
theorem emitLoop_lays {n : Nat} {a : Unit} {start : Nat} (hb : b.Ready)
    (hstart : start+n = b.written.length+3) (h : emitLoop start b = .ok a b') :
    n < 0x10000 ∧ b.Lays b' (Directive.back n).bytes := by
  obtain ⟨_, t, hemit, h⟩ := bind_eq_ok.mp h
  obtain ⟨_, _, hoffset, h⟩ := bind_eq_ok.mp h
  have hop : b.Lays t [Opcode.loop.toByte] := emitBytes_lays hb hemit
  obtain ⟨rfl, rfl⟩ := offset_eq_ok hop.ready hoffset
  have hdistance : t.written.length+2-start = n := by
    rw [hop.code]
    simp
    omega
  rw [hdistance] at h
  cases hw : Word.ofNat? n with
  | none =>
    simp only [hw] at h
    obtain ⟨_, _, _, h⟩ := bind_eq_ok.mp h
    exact absurd h throw_ne_ok
  | some w =>
    obtain ⟨hlt, rfl⟩ := ofNat?_eq_some hw
    simp only [hw] at h
    exact ⟨hlt, hop.trans (emitBytes_lays hop.ready h) hb⟩

end
end Compile
end RatScript
