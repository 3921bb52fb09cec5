import RatScript.Proofs.Code.Decoding
import RatScript.Proofs.Compile.Writing

/-!
Where jumps land. Code is written one instruction after another, with jumps whose distance is open
until they are patched, in any order, and loops back to any offset.
-/

namespace RatScript

open Stateful

namespace Directive

/-- A jump over so many bytes. -/
def leap (op : Opcode) (leaps : op.layout = .jump) (distance : Nat) : Directive :=
  ⟨op, .jump (.ofNat distance), leaps.symm⟩

theorem target_leap {op : Opcode} (leaps : op.layout = .jump) {distance : Nat}
    (h : distance < 0x10000) (offset : Nat) :
    ((leap op leaps distance).at_ offset).target? = some (offset+3+distance) := by
  have hnext : ((leap op leaps distance).at_ offset).next = offset+3 := by
    rw [next_at, width, Opcode.width, show (leap op leaps distance).op.layout = .jump from leaps]
    rfl
  have hword : (UInt16.ofNat distance).toNat = distance := by
    rw [UInt16.toNat_ofNat', Nat.mod_eq_of_lt h]
  simp only [Instruction.target?, hnext]
  simp only [leap, at_, hword]

theorem target_back {distance : Nat} (h : distance < 0x10000) {offset start : Nat}
    (hstart : start+distance = offset+3) : ((back distance).at_ offset).target? = some start := by
  have hword : (UInt16.ofNat distance).toNat = distance := by
    rw [UInt16.toNat_ofNat', Nat.mod_eq_of_lt h]
  have hnext : ((back distance).at_ offset).next = offset+3 := rfl
  simp only [Instruction.target?, hnext]
  simp only [back, at_, hword]
  rw [if_pos (by omega)]
  congr 1
  omega

/-- A directive that jumps is a leap, over some distance. -/
theorem bytes_of_leaps (d : Directive) (leaps : d.op.layout = .jump) :
    ∃ w : UInt16, d.bytes = [d.op.toByte, Word.high w, Word.low w] := by
  have hlaid := d.laid.trans leaps
  cases hoperand : d.operand with
  | jump w => exact ⟨w, by rw [bytes, hoperand]; rfl⟩
  | _ =>
    rw [hoperand] at hlaid
    cases hlaid

end Directive

/-- Something that is emitted: an instruction, a jump whose distance is still open, the place where
one of the jumps lands, or a loop. -/
inductive Emission where
  | instruction (d : Directive)
  | jump (op : Opcode) (leaps : op.layout = .jump)
  | land (k : Nat)
  | loop (start : Nat)

namespace Emission

/-- Jumps are counted from zero as they are emitted; `jumps` are the offsets of their distances. -/
def emit (jumps : List Nat) : Emission → Compile (List Nat)
  | instruction d => do
    Compile.emitBytes d.bytes
    return jumps
  | jump op _ => return jumps++[← Compile.emitJump op]
  | land k => do
    if let some at_ := jumps[k]? then Compile.patchJump at_
    return jumps
  | loop start => do
    Compile.emitLoop start
    return jumps

def emitAll (es : List Emission) (jumps : List Nat) : Compile (List Nat) := es.foldlM emit jumps

end Emission

theorem Chunk.size_patch (chunk : Chunk) (offset : Nat) (distance : UInt16) :
    (chunk.patch offset distance).code.size = chunk.code.size := by
  rw [patch, Array.size_setIfInBounds, Array.size_setIfInBounds]

theorem Chunk.getElem?_patch {chunk : Chunk} {offset k : Nat} {distance : UInt16}
    (hhigh : k ≠ offset) (hlow : k ≠ offset+1) :
    (chunk.patch offset distance).code[k]? = chunk.code[k]? := by
  rw [patch, Array.getElem?_setIfInBounds_ne hlow.symm, Array.getElem?_setIfInBounds_ne hhigh.symm]

theorem Chunk.append_append (chunk : Chunk) (bytes more : List UInt8) :
    (chunk.append bytes).append more = chunk.append (bytes++more) := by
  simp only [append, List.foldl_append]

theorem Builder.modifyChunk_modifyChunk (b : Builder) (f g : Chunk → Chunk) :
    (b.modifyChunk f).modifyChunk g = b.modifyChunk (fun chunk => g (f chunk)) := by
  have hfunctions : (b.functions.modify b.current fun k => {k with chunk := f k.chunk}).modify
      b.current (fun k => {k with chunk := g k.chunk}) =
      b.functions.modify b.current fun k => {k with chunk := g (f k.chunk)} := by
    refine Array.ext_getElem? fun id => ?_
    simp only [Array.getElem?_modify]
    split <;> simp [Function.comp_def]
  simp only [modifyChunk, modifyFunction, hfunctions]

namespace Compile

variable {b : Builder}

theorem offset_bind {α : Type} (f : Nat → Compile α) (b : Builder) :
    (offset >>= f) b = f b.chunk.code.size b := rfl

theorem emitBytes_bind {α : Type} (bytes : List UInt8) (f : Unit → Compile α) (b : Builder) :
    (emitBytes bytes >>= f) b = f () (b.modifyChunk (·.append bytes)) := rfl

theorem emitJump_eq (h : b.current < b.functions.size) (op : Opcode) :
    emitJump op b =
      .ok (b.chunk.code.size+1) (b.modifyChunk (·.append [op.toByte, 0xff, 0xff])) := by
  rw [emitJump, emitBytes_bind, offset_bind, Builder.chunk_modifyChunk h, Chunk.size_append]
  rfl

theorem patchJump_eq {at_ n : Nat} (hn : b.chunk.code.size = at_+2+n) :
    patchJump at_ b = if n < 0x10000 then .ok () (b.modifyChunk (·.patch at_ (.ofNat n)))
      else .error ⟨.jumpTooLong, b.last.pos, b.last.token.spelling⟩ b := by
  rw [patchJump, offset_bind, show b.chunk.code.size-(at_+2) = n by omega, Word.ofNat?]
  split <;> rfl

theorem emitLoop_eq (h : b.current < b.functions.size) {start n : Nat}
    (hn : b.chunk.code.size+3-start = n) :
    emitLoop start b = if n < 0x10000 then .ok () (b.modifyChunk (·.append (Directive.back n).bytes))
      else .error ⟨.loopTooLong, b.last.pos, b.last.token.spelling⟩
        (b.modifyChunk (·.append [Opcode.loop.toByte])) := by
  have hdistance :
      (b.modifyChunk (·.append [Opcode.loop.toByte])).chunk.code.size+2-start = n := by
    rw [Builder.chunk_modifyChunk h, ← hn]
    simp [Chunk.append]
  rw [emitLoop, emit, emitBytes_bind, offset_bind, hdistance, Word.ofNat?]
  split
  · change EStateM.Result.ok () ((b.modifyChunk (·.append [Opcode.loop.toByte])).modifyChunk
      (·.append [Word.high (.ofNat n), Word.low (.ofNat n)])) = _
    rw [Builder.modifyChunk_modifyChunk]
    simp only [Chunk.append_append]
    rfl
  · rfl

end Compile

/-! Drafts: what emissions have written behind a chunk so far. -/

/-- Directives have been written behind a chunk, and the jumps among them that can be patched are at
hand. -/
structure Builder.Drafts (b : Builder) (chunk : Chunk) (ds : List Directive) (jumps : List Nat) :
    Prop where
  there : b.current < b.functions.size
  code : b.chunk.code.toList = chunk.code.toList++Directive.encode ds
  placed : ∀ at_ ∈ jumps, ∃ i ∈ Directive.place chunk.code.size ds,
    i.op.layout = .jump ∧ at_ = i.offset+1
  apart : jumps.Nodup

/-- Where an instruction stood one that does the same stands later. -/
theorem Directive.exists_of_outline {origin : Nat} {ds ds' : List Directive} {i : Instruction}
    (h : (place origin ds).map Instruction.beginning ⊆
      (place origin ds').map Instruction.beginning) (hi : i ∈ place origin ds) :
    ∃ j ∈ place origin ds', j.offset = i.offset ∧ j.op = i.op := by
  obtain ⟨j, hj, heq⟩ := List.mem_map.mp (h (List.mem_map_of_mem hi))
  exact ⟨j, hj, congrArg Prod.fst heq, congrArg Prod.snd heq⟩

/-- From one draft to a later one instructions keep their places and what they do, jumps keep their
numbers, and what is not patched stays as it is. -/
structure Directive.Revises (origin : Nat) (es : List Emission) (ds : List Directive)
    (jumps : List Nat) (ds' : List Directive) (jumps' : List Nat) : Prop where
  outline : (place origin ds).map Instruction.beginning <+:
    (place origin ds').map Instruction.beginning
  jumps : jumps <+: jumps'
  kept : ∀ i ∈ place origin ds,
    (∀ k, jumps'[k]? = some (i.offset+1) → .land k ∉ es) → i ∈ place origin ds'

namespace Directive.Revises

variable {origin : Nat} {es more : List Emission} {ds ds' ds'' : List Directive}
  {jumps jumps' jumps'' : List Nat}

theorem refl (origin : Nat) (es : List Emission) (ds : List Directive) (jumps : List Nat) :
    Revises origin es ds jumps ds jumps :=
  ⟨List.prefix_rfl, List.prefix_rfl, fun _ hi _ => hi⟩

theorem trans (h : Revises origin es ds jumps ds' jumps')
    (k : Revises origin more ds' jumps' ds'' jumps'') :
    Revises origin (es++more) ds jumps ds'' jumps'' where
  outline := h.outline.trans k.outline
  jumps := h.jumps.trans k.jumps
  kept i hi hfree := by
    have hnumber (n : Nat) (hn : jumps'[n]? = some (i.offset+1)) :
        jumps''[n]? = some (i.offset+1) := by
      obtain ⟨later, rfl⟩ := k.jumps
      rw [List.getElem?_append_left (List.getElem?_eq_some_iff.mp hn).1, hn]
    refine k.kept i (h.kept i hi fun n hn hmem => ?_) fun n hn hmem => ?_
    · exact hfree n (hnumber n hn) (List.mem_append_left _ hmem)
    · exact hfree n hn (List.mem_append_right _ hmem)

theorem append (origin : Nat) (es : List Emission) (ds : List Directive) (d : Directive)
    {jumps jumps' : List Nat} (hjumps : jumps <+: jumps') :
    Revises origin es ds jumps (ds++[d]) jumps' := by
  refine ⟨?_, hjumps, fun i hi _ => ?_⟩
  · rw [place_append, List.map_append]
    exact List.prefix_append _ _
  · rw [place_append]
    exact List.mem_append_left _ hi

end Directive.Revises

/-- A directive for another with the same operation: everything else stands where it stood. -/
theorem Directive.outline_exchange (origin : Nat) (before after : List Directive) {d e : Directive}
    (h : e.op = d.op) :
    (place origin (before++e :: after)).map Instruction.beginning =
      (place origin (before++d :: after)).map Instruction.beginning := by
  have hwidth : e.width = d.width := by rw [width, width, h]
  rw [place_append, place_append, place, place, hwidth]
  simp [Instruction.beginning, at_, h]

namespace Builder.Drafts

variable {b : Builder} {chunk : Chunk} {ds : List Directive} {jumps : List Nat}

theorem start (h : b.current < b.functions.size) : b.Drafts b.chunk [] [] :=
  ⟨h, by simp, nofun, List.nodup_nil⟩

theorem size (h : b.Drafts chunk ds jumps) :
    b.chunk.code.size = chunk.code.size+Directive.size ds := by
  rw [← Array.length_toList, h.code, List.length_append, Array.length_toList,
    Directive.length_encode]

theorem there_modifyChunk (h : b.Drafts chunk ds jumps) (f : Chunk → Chunk) :
    (b.modifyChunk f).current < (b.modifyChunk f).functions.size := by
  rw [modifyChunk, modifyFunction, Array.size_modify]
  exact h.there

theorem append (h : b.Drafts chunk ds jumps) (d : Directive) :
    (b.modifyChunk (·.append d.bytes)).Drafts chunk (ds++[d]) jumps where
  there := h.there_modifyChunk _
  code := by
    rw [chunk_modifyChunk h.there, Chunk.toList_append, h.code, Directive.encode_append,
      Directive.encode_cons, Directive.encode_nil, List.append_nil, List.append_assoc]
  placed at_ hat := by
    obtain ⟨i, hi, hop⟩ := h.placed at_ hat
    exact ⟨i, Directive.place_append _ _ _ ▸ List.mem_append_left _ hi, hop⟩
  apart := h.apart

/-- A directive that is written stands at the end of the code so far. -/
theorem mem_last (h : b.Drafts chunk ds jumps) (d : Directive) :
    d.at_ b.chunk.code.size ∈ Directive.place chunk.code.size (ds++[d]) :=
  h.size ▸ Directive.mem_place _ ds d []

theorem opens (h : b.Drafts chunk ds jumps) (op : Opcode) (leaps : op.layout = .jump) :
    (b.modifyChunk (·.append [op.toByte, 0xff, 0xff])).Drafts chunk
      (ds++[.leap op leaps 0xffff]) (jumps++[b.chunk.code.size+1]) := by
  have hadd := h.append (.leap op leaps 0xffff)
  refine ⟨hadd.there, hadd.code, fun at_ hat => ?_, ?_⟩
  · rcases List.mem_append.mp hat with hat | hat
    · exact hadd.placed at_ hat
    · cases List.mem_singleton.mp hat
      exact ⟨(Directive.leap op leaps 0xffff).at_ b.chunk.code.size, h.mem_last _, leaps, rfl⟩
  · refine List.nodup_append.mpr ⟨h.apart, List.nodup_singleton _, ?_⟩
    rintro at_ hat _ hnew rfl
    obtain ⟨i, hi, _, rfl⟩ := h.placed _ hat
    have hbounds := (Directive.place_bounds hi).2
    have hnew := List.mem_singleton.mp hnew
    rw [h.size, Instruction.next, Opcode.width] at *
    omega

/-- A jump is patched: it becomes a leap over so many bytes, and nothing else changes. -/
theorem lands (h : b.Drafts chunk ds jumps) {at_ : Nat} (hat : at_ ∈ jumps) (n : Nat) :
    ∃ (before : List Directive) (d : Directive) (after : List Directive)
      (leaps : d.op.layout = .jump),
      ds = before++d :: after ∧ at_ = chunk.code.size+Directive.size before+1 ∧
      (b.modifyChunk (·.patch at_ (.ofNat n))).Drafts chunk
        (before++.leap d.op leaps n :: after) jumps := by
  obtain ⟨i, hi, leaps, rfl⟩ := h.placed at_ hat
  obtain ⟨before, d, after, rfl, rfl⟩ := Directive.split_of_mem_place hi
  refine ⟨before, d, after, leaps, rfl, rfl, h.there_modifyChunk _, ?_, fun a ha => ?_, h.apart⟩
  · obtain ⟨w, hw⟩ := Directive.bytes_of_leaps d leaps
    have hcode : b.chunk.code.toList = (chunk.code.toList++Directive.encode before++[d.op.toByte])++
        Word.high w :: Word.low w :: Directive.encode after := by
      rw [h.code, Directive.encode_append, Directive.encode_cons, hw]
      simp
    have hlength : (chunk.code.toList++Directive.encode before++[d.op.toByte]).length =
        (d.at_ (chunk.code.size+Directive.size before)).offset+1 := by
      simp [Directive.length_encode, Directive.at_, Nat.add_assoc]
    rw [chunk_modifyChunk h.there, ← hlength, Chunk.toList_patch hcode, Directive.encode_append,
      Directive.encode_cons]
    simp [Directive.leap, Directive.bytes, Operand.bytes]
  · obtain ⟨j, hj, hop, rfl⟩ := h.placed a ha
    have hsame := Directive.outline_exchange chunk.code.size before after
      (show (Directive.leap d.op leaps n).op = d.op from rfl)
    obtain ⟨k, hk, hoffset, heq⟩ := Directive.exists_of_outline (fun _ h => hsame ▸ h) hj
    exact ⟨k, hk, heq ▸ hop, by rw [hoffset]⟩

end Builder.Drafts

namespace Emission

variable {b b' : Builder} {chunk : Chunk} {ds : List Directive} {jumps jumps' : List Nat}

/-- Patching a jump revises what was written. -/
theorem revises_lands {before after : List Directive} {d : Directive} {leaps : d.op.layout = .jump}
    {k at_ : Nat} (hk : jumps[k]? = some at_)
    (hat : at_ = chunk.code.size+Directive.size before+1) (n : Nat) :
    Directive.Revises chunk.code.size [.land k] (before++d :: after) jumps
      (before++.leap d.op leaps n :: after) jumps := by
  refine ⟨?_, List.prefix_rfl, fun i hi hfree => ?_⟩
  · rw [Directive.outline_exchange _ _ _ (show (Directive.leap d.op leaps n).op = d.op from rfl)]
  · rw [Directive.place_append, Directive.place] at hi ⊢
    rcases List.mem_append.mp hi with hi | hi
    · exact List.mem_append_left _ hi
    rcases List.mem_cons.mp hi with rfl | hi
    · exact absurd List.mem_cons_self (hfree k (hat ▸ hk))
    · exact List.mem_append_right _ (List.mem_cons_of_mem _ hi)

/-- What one emission does to a draft. -/
theorem emit_revises (h : b.Drafts chunk ds jumps) {e : Emission}
    (he : e.emit jumps b = .ok jumps' b') :
    ∃ ds', b'.Drafts chunk ds' jumps' ∧
      Directive.Revises chunk.code.size [e] ds jumps ds' jumps' := by
  cases e with
  | instruction d =>
    cases he
    exact ⟨ds++[d], h.append d, .append _ _ _ _ List.prefix_rfl⟩
  | jump op leaps =>
    obtain ⟨at_, t, hjump, hpure⟩ := bind_eq_ok.mp he
    rw [Compile.emitJump_eq h.there] at hjump
    cases hjump
    cases hpure
    exact ⟨_, h.opens op leaps, .append _ _ _ _ (List.prefix_append _ _)⟩
  | land k =>
    simp only [emit] at he
    cases hk : jumps[k]? with
    | none =>
      rw [hk] at he
      cases he
      exact ⟨ds, h, .refl _ _ _ _⟩
    | some at_ =>
      rw [hk] at he
      obtain ⟨_, t, hpatch, hpure⟩ := bind_eq_ok.mp he
      cases hpure
      obtain ⟨before, d, after, leaps, rfl, hat, hdrafts⟩ :=
        h.lands (List.mem_of_getElem? hk) (b.chunk.code.size-(at_+2))
      have hsize : b.chunk.code.size = at_+2+(b.chunk.code.size-(at_+2)) := by
        have hwidth : d.width = 3 := by rw [Directive.width, Opcode.width, leaps]; rfl
        have hb := h.size
        rw [Directive.size_append, Directive.size_cons, hwidth] at hb
        omega
      rw [Compile.patchJump_eq hsize] at hpatch
      split at hpatch
      · cases hpatch
        exact ⟨_, hdrafts, revises_lands hk hat _⟩
      · cases hpatch
  | loop start =>
    obtain ⟨_, t, hloop, hpure⟩ := bind_eq_ok.mp he
    cases hpure
    rw [Compile.emitLoop_eq h.there rfl] at hloop
    split at hloop
    · cases hloop
      exact ⟨_, h.append (.back _), .append _ _ _ _ List.prefix_rfl⟩
    · cases hloop

/-- What any emissions do to a draft. -/
theorem emitAll_revises {es : List Emission} (h : b.Drafts chunk ds jumps)
    (hes : emitAll es jumps b = .ok jumps' b') :
    ∃ ds', b'.Drafts chunk ds' jumps' ∧
      Directive.Revises chunk.code.size es ds jumps ds' jumps' := by
  induction es generalizing b ds jumps with
  | nil =>
    cases hes
    exact ⟨ds, h, .refl _ _ _ _⟩
  | cons e es ih =>
    rw [emitAll, List.foldlM_cons] at hes
    obtain ⟨_, t, he, hes⟩ := bind_eq_ok.mp hes
    obtain ⟨_, hdrafts, hfirst⟩ := emit_revises h he
    obtain ⟨ds', hdrafts', hrest⟩ := ih hdrafts hes
    exact ⟨ds', hdrafts', hfirst.trans hrest⟩

/-- Instructions that no emission patches stay. -/
theorem stays {es : List Emission} (h : b.Drafts chunk ds jumps)
    (hes : emitAll es jumps b = .ok jumps' b') {i : Instruction}
    (hi : i ∈ Directive.place chunk.code.size ds)
    (hfree : i.op.layout = .jump → ∃ n, jumps[n]? = some (i.offset+1) ∧ .land n ∉ es) :
    ∃ ds', b'.Drafts chunk ds' jumps' ∧ i ∈ Directive.place chunk.code.size ds' := by
  obtain ⟨ds', hdrafts, hrevises⟩ := emitAll_revises h hes
  refine ⟨ds', hdrafts, hrevises.kept i hi fun k hk => ?_⟩
  -- number `k` is the distance of this very instruction, which is then a jump
  obtain ⟨j, hj, leaps, hoffset⟩ := hdrafts.placed _ (List.mem_of_getElem? hk)
  obtain ⟨i', hi', hoffset', hop⟩ := Directive.exists_of_outline hrevises.outline.subset hi
  have hsame : i' = j := Directive.eq_of_mem_place hi' hj (by omega)
  obtain ⟨n, hn, hmem⟩ := hfree (hop ▸ hsame ▸ leaps)
  have hn' : jumps'[n]? = some (i.offset+1) := by
    obtain ⟨later, hlater⟩ := hrevises.jumps
    rw [← hlater, List.getElem?_append_left (List.getElem?_eq_some_iff.mp hn).1, hn]
  have hlt := (List.getElem?_eq_some_iff.mp hk).1
  rw [(List.getElem?_inj hlt hdrafts.apart).mp (hk.trans hn'.symm)]
  exact hmem

end Emission

namespace Builder.Drafts

variable {b b₀ : Builder} {chunk : Chunk} {ds ds₀ : List Directive} {jumps jumps₀ : List Nat}

theorem leads (h : b.Drafts chunk ds jumps) {origin : Nat} (hwhole : chunk.WholeFrom origin)
    {i : Instruction} (hi : i ∈ Directive.place chunk.code.size ds) {target : Nat}
    (ht : i.target? = some target) : b.chunk.Leads origin i.offset i.op target := by
  refine ⟨i, ?_, rfl, rfl, ht⟩
  rw [(hwhole.append h.code).2]
  exact List.mem_append_right _ hi

theorem wholeFrom (h : b.Drafts chunk ds jumps) {origin : Nat} (hwhole : chunk.WholeFrom origin) :
    b.chunk.WholeFrom origin :=
  (hwhole.append h.code).1

theorem outline (h : b.Drafts chunk ds jumps) {origin : Nat} (hwhole : chunk.WholeFrom origin) :
    b.chunk.outline origin =
      chunk.outline origin++(Directive.place chunk.code.size ds).map Instruction.beginning := by
  rw [Chunk.outline, (hwhole.append h.code).2, List.map_append, Chunk.outline]

/-- The jump that was opened after one draft is patched in a later one. -/
theorem patches (h₀ : b₀.Drafts chunk ds₀ jumps₀) {op : Opcode} {leaps : op.layout = .jump}
    (h : b.Drafts chunk ds jumps) {es : List Emission}
    (hrevises : Directive.Revises chunk.code.size es (ds₀++[.leap op leaps 0xffff])
      (jumps₀++[b₀.chunk.code.size+1]) ds jumps) (n : Nat) :
    ∃ ds', (b.modifyChunk (·.patch (b₀.chunk.code.size+1) (.ofNat n))).Drafts chunk ds' jumps ∧
      (Directive.place chunk.code.size ds').map Instruction.beginning =
        (Directive.place chunk.code.size ds).map Instruction.beginning ∧
      (Directive.leap op leaps n).at_ b₀.chunk.code.size ∈ Directive.place chunk.code.size ds' ∧
      b₀.chunk.code.size+3 ≤ b.chunk.code.size := by
  have hnumber : b₀.chunk.code.size+1 ∈ jumps := hrevises.jumps.subset (by simp)
  obtain ⟨before, d, after, hleaps, rfl, hat, hdrafts⟩ := h.lands hnumber n
  have hplace : b₀.chunk.code.size = chunk.code.size+Directive.size before := by omega
  obtain ⟨j, hj, hoffset, hop⟩ :=
    Directive.exists_of_outline hrevises.outline.subset (h₀.mem_last (.leap op leaps 0xffff))
  have hd := Directive.mem_place chunk.code.size before d after
  have hsame := Directive.eq_of_mem_place hj hd (hoffset.trans hplace)
  have hdop : d.op = op := by
    rw [hsame] at hop
    exact hop
  subst hdop
  refine ⟨_, hdrafts, Directive.outline_exchange _ _ _ rfl, ?_, ?_⟩
  · exact hplace ▸ Directive.mem_place chunk.code.size before (.leap d.op leaps n) after
  · have hend := (Directive.place_bounds hd).2
    rw [← h.size, Directive.next_at, ← hplace, Directive.width, Opcode.width, leaps] at hend
    exact hend

end Builder.Drafts

namespace Emission

open Compile

variable {b b₀ : Builder} {ds₀ : List Directive} {jumps : List Nat}

/-- What becomes of a jump. It was opened in the state `b₀` and is patched, which leads from the
state `b₂` to `b₃`; the emissions began in the state `b`, and jumps have been counted. -/
structure Lands (b b₀ b₂ b₃ : Builder) (jumps jumps₂ : List Nat) (op : Opcode) : Prop where
  size : b₃.chunk.code.size = b₂.chunk.code.size
  others : ∀ k, k ≠ b₀.chunk.code.size+1 → k ≠ b₀.chunk.code.size+2 →
    b₃.chunk.code[k]? = b₂.chunk.code[k]?
  whole : ∀ origin, b.chunk.WholeFrom origin → b₃.chunk.WholeFrom origin
  outline : ∀ origin, b.chunk.WholeFrom origin →
    b₃.chunk.outline origin = b₂.chunk.outline origin
  /-- Whatever else is emitted and patched, the jump leads to the place where it was patched. -/
  leads : ∀ origin, b.chunk.WholeFrom origin → ∀ later jumps₄ b₄, .land jumps.length ∉ later →
    emitAll later jumps₂ b₃ = .ok jumps₄ b₄ →
    b₄.chunk.Leads origin b₀.chunk.code.size op b₂.chunk.code.size

/-- What becomes of a loop, which is emitted from the state `b₀` to `b₁`. -/
structure Loops (b b₀ b₁ : Builder) (jumps : List Nat) (start : Nat) : Prop where
  size : b₁.chunk.code.size = b₀.chunk.code.size+3
  others : b₀.chunk.code.toList <+: b₁.chunk.code.toList
  whole : ∀ origin, b.chunk.WholeFrom origin → b₁.chunk.WholeFrom origin
  outline : ∀ origin, b.chunk.WholeFrom origin →
    b₁.chunk.outline origin = b₀.chunk.outline origin++[(b₀.chunk.code.size, .loop)]
  leads : ∀ origin, b.chunk.WholeFrom origin → ∀ later jumps₂ b₂,
    emitAll later jumps b₁ = .ok jumps₂ b₂ →
    b₂.chunk.Leads origin b₀.chunk.code.size .loop start

theorem lands_of_drafts (h₀ : b₀.Drafts b.chunk ds₀ jumps) {op : Opcode} (leaps : op.layout = .jump)
    {between : List Emission} {jumps₂ : List Nat} {b₂ : Builder}
    (hbetween : emitAll between (jumps++[b₀.chunk.code.size+1])
      (b₀.modifyChunk (·.append [op.toByte, 0xff, 0xff])) = .ok jumps₂ b₂) :
    ∃ n, b₂.chunk.code.size = b₀.chunk.code.size+1+2+n ∧
      (n < 0x10000 → Lands b b₀ b₂
        (b₂.modifyChunk (·.patch (b₀.chunk.code.size+1) (.ofNat n))) jumps jumps₂ op) := by
  obtain ⟨ds₂, h₂, hrevises⟩ := emitAll_revises (h₀.opens op leaps) hbetween
  have hnumber : jumps₂[jumps.length]? = some (b₀.chunk.code.size+1) := by
    obtain ⟨later, rfl⟩ := hrevises.jumps
    simp
  set n := b₂.chunk.code.size-(b₀.chunk.code.size+3)
  obtain ⟨ds₃, h₃, houtline, hleap, hbehind⟩ := h₀.patches h₂ hrevises n
  have hn : b₂.chunk.code.size = b₀.chunk.code.size+1+2+n := by omega
  refine ⟨n, hn, fun hlt => ⟨?_, ?_, fun _ => h₃.wholeFrom, ?_, ?_⟩⟩
  · rw [Builder.chunk_modifyChunk h₂.there, Chunk.size_patch]
  · intro k hhigh hlow
    rw [Builder.chunk_modifyChunk h₂.there, Chunk.getElem?_patch hhigh hlow]
  · intro origin hwhole
    rw [h₃.outline hwhole, h₂.outline hwhole, houtline]
  · intro origin hwhole later jumps₄ b₄ hfree hlater
    obtain ⟨ds₄, h₄, hstays⟩ := stays h₃ hlater hleap fun _ => ⟨jumps.length, hnumber, hfree⟩
    have htarget := Directive.target_leap leaps hlt b₀.chunk.code.size
    exact h₄.leads hwhole hstays (htarget.trans (by rw [hn]))

theorem loops_of_drafts (h₀ : b₀.Drafts b.chunk ds₀ jumps) {start n : Nat}
    (hn : start+n = b₀.chunk.code.size+3) (hlt : n < 0x10000) :
    Loops b b₀ (b₀.modifyChunk (·.append (Directive.back n).bytes)) jumps start := by
  have h₁ := h₀.append (.back n)
  refine ⟨?_, ?_, fun _ => h₁.wholeFrom, ?_, ?_⟩
  · rw [Builder.chunk_modifyChunk h₀.there, Chunk.size_append]
    rfl
  · rw [Builder.chunk_modifyChunk h₀.there, Chunk.toList_append]
    exact List.prefix_append _ _
  · intro origin hwhole
    rw [h₁.outline hwhole, h₀.outline hwhole, Directive.place_append, List.map_append, h₀.size,
      List.append_assoc]
    rfl
  · intro origin hwhole later jumps₂ b₂ hlater
    have hloop : ((Directive.back n).at_ b₀.chunk.code.size).op.layout ≠ .jump := nofun
    obtain ⟨ds₂, h₂, hstays⟩ :=
      stays h₁ hlater (h₀.mem_last _) fun leaps => absurd leaps hloop
    exact h₂.leads hwhole hstays (Directive.target_back hlt hn)

/-- Jumps land where they are patched, and loops lead back to their start: a jump can be patched
exactly if at most 65535 bytes were emitted behind it, and a loop can be emitted exactly if it is no
farther from its start to its end. Instructions are emitted and other jumps and loops opened and
closed before, in between and afterwards as one likes. -/
theorem jumps_land {before : List Emission} (hthere : b.current < b.functions.size)
    (hbefore : emitAll before [] b = .ok jumps b₀) :
    (∀ op, op.layout = .jump → ∃ at_ b₁, emitJump op b₀ = .ok at_ b₁ ∧
      ∀ between jumps₂ b₂, emitAll between (jumps++[at_]) b₁ = .ok jumps₂ b₂ →
        ((∃ b₃, patchJump at_ b₂ = .ok () b₃) ↔
          b₂.chunk.code.size-b₁.chunk.code.size ≤ 65535) ∧
        ∀ b₃, patchJump at_ b₂ = .ok () b₃ → Lands b b₀ b₂ b₃ jumps jumps₂ op) ∧
    ∀ start ≤ b₀.chunk.code.size,
      ((∃ b₁, emitLoop start b₀ = .ok () b₁) ↔ b₀.chunk.code.size+3-start ≤ 65535) ∧
      ∀ b₁, emitLoop start b₀ = .ok () b₁ → Loops b b₀ b₁ jumps start := by
  obtain ⟨ds₀, h₀, -⟩ := emitAll_revises (.start hthere) hbefore
  refine ⟨fun op leaps => ?_, fun start hstart => ?_⟩
  · refine ⟨_, _, emitJump_eq h₀.there op, fun between jumps₂ b₂ hbetween => ?_⟩
    obtain ⟨n, hn, hlands⟩ := lands_of_drafts h₀ leaps hbetween
    have hopened : (b₀.modifyChunk (·.append [op.toByte, 0xff, 0xff])).chunk.code.size =
        b₀.chunk.code.size+3 := by
      rw [Builder.chunk_modifyChunk h₀.there, Chunk.size_append]
      rfl
    rw [hopened, patchJump_eq hn]
    by_cases hlt : n < 0x10000
    · rw [if_pos hlt]
      refine ⟨⟨fun _ => by omega, fun _ => ⟨_, rfl⟩⟩, fun b₃ h => ?_⟩
      cases h
      exact hlands hlt
    · rw [if_neg hlt]
      exact ⟨⟨nofun, fun _ => by omega⟩, nofun⟩
  · have hn : start+(b₀.chunk.code.size+3-start) = b₀.chunk.code.size+3 := by omega
    rw [emitLoop_eq h₀.there rfl]
    by_cases hlt : b₀.chunk.code.size+3-start < 0x10000
    · rw [if_pos hlt]
      refine ⟨⟨fun _ => Nat.le_of_lt_succ hlt, fun _ => ⟨_, rfl⟩⟩, fun b₁ h => ?_⟩
      cases h
      exact loops_of_drafts h₀ hn hlt
    · rw [if_neg hlt]
      exact ⟨⟨nofun, fun h => absurd (Nat.lt_succ_of_le h) hlt⟩, nofun⟩

/-- A jump at the start of a script over one instruction. -/
theorem jumps_land_over_pop : ∃ at_ b₁ jumps₂ b₂ b₃,
    (Builder.start []).current < (Builder.start []).functions.size ∧
    emitJump .jump (Builder.start []) = .ok at_ b₁ ∧
    emitAll [.instruction ⟨.pop, .none, rfl⟩] [at_] b₁ = .ok jumps₂ b₂ ∧
    patchJump at_ b₂ = .ok () b₃ ∧ b₃.chunk.Leads 0 0 .jump 4 := by
  have hthere : (Builder.start []).current < (Builder.start []).functions.size := by decide
  have hwhole : (Builder.start []).chunk.WholeFrom 0 := by
    refine ⟨Nat.zero_le _, ?_⟩
    rw [Instruction.decodeFrom]
    rfl
  obtain ⟨at_, b₁, hjump, h⟩ := (jumps_land hthere (rfl : emitAll [] [] _ = _)).1 .jump rfl
  cases hjump
  have hpop := h [.instruction ⟨.pop, .none, rfl⟩] _ _ rfl
  obtain ⟨b₃, hpatch⟩ := hpop.1.mpr (by decide)
  have hleads := (hpop.2 b₃ hpatch).leads 0 hwhole [] _ _ List.not_mem_nil rfl
  exact ⟨_, _, _, _, b₃, hthere, rfl, rfl, hpatch, hleads⟩

end Emission
end RatScript
