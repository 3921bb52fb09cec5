import RatScript.Proofs.Compile.Writing

/-!
The pool of a chunk that starts empty. Whatever is added to it in whatever order, an index that was
given names what it was given for, then and ever after.
-/

namespace RatScript

/-- A call that adds to a pool. -/
inductive Addition where
  | constant (c : Constant)
  | text (content : String)
  | number (literal : String)

namespace Addition

def apply (a : Addition) (chunk : Chunk) : Except PoolFault (Chunk × UInt8) :=
  match a with
  | constant c => chunk.addConstant c
  | text content => chunk.addText content
  | number literal => chunk.addNumber literal

/-- The constant that is added. Literals that are no finite number stand for none. -/
def wants? : Addition → Option Constant
  | constant c => some c
  | text content => some (.text content)
  | number literal => (Number.parseFinite? literal).map .number

/-- What keeps a call from a pool. -/
def Refused (chunk : Chunk) : Addition → Prop
  | constant _ => chunk.constants.size = Chunk.capacity
  | text content =>
    chunk.constants.size = Chunk.capacity ∧ .text content ∉ chunk.constants.toList
  | number literal =>
    chunk.constants.size = Chunk.capacity ∨ Number.parseFinite? literal = none

/-- The chunk behind a call, which may fail. -/
def after (a : Addition) (chunk : Chunk) : Chunk :=
  match a.apply chunk with
  | .ok (chunk, _) => chunk
  | .error _ => chunk

end Addition

namespace Chunk

/-- The chunk behind calls, each of which may fail. -/
def afterAll (chunk : Chunk) (calls : List Addition) : Chunk :=
  calls.foldl (fun chunk a => a.after chunk) chunk

/-- No text is there twice. -/
def TextsApart (chunk : Chunk) : Prop :=
  chunk.constants.toList.Pairwise fun c d => ∀ content, c = .text content → d ≠ .text content

/-- What comes behind all others differs from them, if it is a text. -/
theorem TextsApart.push {chunk chunk' : Chunk} {index : UInt8} {c : Constant} (h : chunk.TextsApart)
    (hadd : chunk.addConstant c = .ok (chunk', index))
    (hc : ∀ content, c = .text content → c ∉ chunk.constants.toList) : chunk'.TextsApart := by
  unfold addConstant at hadd
  split at hadd
  · cases hadd
    rw [TextsApart, Array.toList_push]
    refine List.pairwise_append.mpr ⟨h, List.pairwise_singleton _ _, ?_⟩
    rintro d hd e he content rfl rfl
    cases List.mem_singleton.mp he
    exact hc content rfl hd
  · cases hadd

theorem TextsApart.index_unique {chunk : Chunk} (h : chunk.TextsApart) {i j : Nat} {content : String}
    (hi : chunk.constants[i]? = some (.text content))
    (hj : chunk.constants[j]? = some (.text content)) : i = j := by
  rw [← Array.getElem?_toList, List.getElem?_eq_some_iff] at hi hj
  obtain ⟨hilt, hi⟩ := hi
  obtain ⟨hjlt, hj⟩ := hj
  have hpair := List.pairwise_iff_getElem.mp h
  rcases Nat.lt_trichotomy i j with hlt | heq | hlt
  · exact absurd hj (hpair i j hilt hjlt hlt content hi)
  · exact heq
  · exact absurd hi (hpair j i hjlt hilt hlt content hj)

theorem addConstant_fails {chunk : Chunk} (hpool : chunk.constants.size ≤ capacity) (c : Constant) :
    (∃ fault, chunk.addConstant c = .error fault) ↔ chunk.constants.size = capacity := by
  have hfull : chunk.constants.size = capacity ↔ ¬ chunk.constants.size < capacity := by omega
  rw [hfull, addConstant]
  split <;> simp_all

theorem findIdx?_eq_none {chunk : Chunk} {content : String} :
    chunk.constants.findIdx? (· == .text content) = none ↔
      .text content ∉ chunk.constants.toList := by
  rw [Array.findIdx?_eq_none_iff, Array.mem_toList_iff]
  constructor
  · intro h hmem
    exact absurd (h _ hmem) (by simp)
  · intro h c hc
    exact beq_eq_false_iff_ne.mpr fun heq => h (heq ▸ hc)

end Chunk

namespace Addition

variable {chunk chunk' : Chunk} {index : UInt8} {a : Addition}

/-- A call that succeeds gives the index of what was to be added. -/
theorem gains (hpool : chunk.constants.size ≤ Chunk.capacity)
    (h : a.apply chunk = .ok (chunk', index)) :
    ∃ c, a.wants? = some c ∧ chunk.Gains chunk' index c := by
  cases a with
  | constant c => exact ⟨c, rfl, Chunk.addConstant_gains h⟩
  | text content => exact ⟨_, rfl, Chunk.addText_gains hpool h⟩
  | number literal =>
    obtain ⟨value, hvalue, hgains⟩ := Chunk.addNumber_gains h
    exact ⟨_, by rw [wants?, hvalue]; rfl, hgains⟩

theorem fails_iff (hpool : chunk.constants.size ≤ Chunk.capacity) :
    (∃ fault, a.apply chunk = .error fault) ↔ a.Refused chunk := by
  cases a with
  | constant c => exact Chunk.addConstant_fails hpool c
  | text content =>
    change (∃ fault, chunk.addText content = .error fault) ↔ _ ∧ _
    rw [← Chunk.findIdx?_eq_none]
    unfold Chunk.addText
    cases hfind : chunk.constants.findIdx? (· == .text content) with
    | some i => simp
    | none => simpa using Chunk.addConstant_fails hpool (.text content)
  | number literal =>
    change (∃ fault, chunk.addNumber literal = .error fault) ↔ _ ∨ _
    unfold Chunk.addNumber
    cases hvalue : Number.parseFinite? literal with
    | some value => simpa using Chunk.addConstant_fails hpool (.number value)
    | none => simp

/-- What a call leaves holds all that was there, and no more than there is room for. -/
theorem after_keeps (hpool : chunk.constants.size ≤ Chunk.capacity) (a : Addition) :
    (a.after chunk).constants.size ≤ Chunk.capacity ∧
      chunk.constants.toList <+: (a.after chunk).constants.toList := by
  unfold after
  split
  · next h =>
    obtain ⟨c, _, hgains⟩ := gains hpool h
    exact ⟨hgains.pool, hgains.constants⟩
  · exact ⟨hpool, List.prefix_rfl⟩

/-- Texts that enter as texts only are kept once. -/
theorem after_apart (h : chunk.TextsApart) (ha : ∀ content, a ≠ .constant (.text content)) :
    (a.after chunk).TextsApart := by
  unfold after
  split
  · next hadd =>
    cases a with
    | constant c => exact h.push hadd fun content hc => absurd (congrArg constant hc) (ha content)
    | text content =>
      change chunk.addText content = _ at hadd
      unfold Chunk.addText at hadd
      split at hadd
      · cases hadd
        exact h
      · next hnone => exact h.push hadd fun _ _ => Chunk.findIdx?_eq_none.mp hnone
    | number literal =>
      change chunk.addNumber literal = _ at hadd
      unfold Chunk.addNumber at hadd
      split at hadd
      · exact h.push hadd (by simp)
      · cases hadd
  · exact h

/-- A call that fails in the compiler is reported, and leaves all as it was. -/
theorem enter_fails {b : Builder} {fault : PoolFault} (h : a.apply b.chunk = .error fault) :
    Compile.enter a.apply b =
      .error ⟨.pool fault, b.last.pos, b.last.token.spelling⟩ b := by
  refine Stateful.bind_eq_error.mpr (.inr ⟨b, b, rfl, ?_⟩)
  rw [h]
  rfl

end Addition

namespace Chunk

theorem afterAll_keeps {chunk : Chunk} (hpool : chunk.constants.size ≤ capacity)
    (calls : List Addition) :
    (chunk.afterAll calls).constants.size ≤ capacity ∧
      chunk.constants.toList <+: (chunk.afterAll calls).constants.toList := by
  induction calls generalizing chunk with
  | nil => exact ⟨hpool, List.prefix_rfl⟩
  | cons a calls ih =>
    obtain ⟨hnext, hgrows⟩ := a.after_keeps hpool
    obtain ⟨hall, hmore⟩ := ih hnext
    exact ⟨hall, hgrows.trans hmore⟩

theorem afterAll_apart {chunk : Chunk} (h : chunk.TextsApart) (calls : List Addition)
    (hcalls : ∀ content, .constant (.text content) ∉ calls) : (chunk.afterAll calls).TextsApart := by
  induction calls generalizing chunk with
  | nil => exact h
  | cons a calls ih =>
    have ha (content : String) : a ≠ .constant (.text content) := by
      rintro rfl
      exact hcalls content (List.mem_cons_self ..)
    exact ih (a.after_apart h ha) fun content hmem => hcalls content (List.mem_cons_of_mem _ hmem)

/-- What is added to a pool that starts empty is there under its index, then and ever after. There are
as many indices as one byte can tell apart; a call fails only for want of them or for its literal, and
leaves all as it was. Where texts enter as texts only, none is there twice. -/
theorem indices_hold (before : List Addition) (a : Addition) :
    let chunk := empty.afterAll before
    chunk.constants.size ≤ capacity ∧
    (∀ chunk' index, a.apply chunk = .ok (chunk', index) →
      ∃ c, a.wants? = some c ∧ ∀ later, (chunk'.afterAll later).constant? index = some c) ∧
    ((∃ fault, a.apply chunk = .error fault) ↔ a.Refused chunk) ∧
    (∀ fault, a.apply chunk = .error fault → a.after chunk = chunk ∧
      ∀ b : Builder, b.chunk = chunk →
        Compile.enter a.apply b = .error ⟨.pool fault, b.last.pos, b.last.token.spelling⟩ b) ∧
    ((∀ content, .constant (.text content) ∉ before) →
      ∀ (i j : Nat) (content : String), chunk.constants[i]? = some (.text content) →
        chunk.constants[j]? = some (.text content) → i = j) := by
  intro chunk
  have hpool : chunk.constants.size ≤ capacity := (afterAll_keeps (Nat.zero_le _) before).1
  have happart : empty.TextsApart := List.Pairwise.nil
  refine ⟨hpool, fun chunk' index h => ?_, Addition.fails_iff hpool, fun fault h => ⟨?_, ?_⟩,
    fun hcalls i j content hi hj => ?_⟩
  · obtain ⟨c, hwants, hgains⟩ := Addition.gains hpool h
    refine ⟨c, hwants, fun later => ?_⟩
    exact constant?_of_prefix (afterAll_keeps hgains.pool later).2 hgains.named
  · rw [Addition.after, h]
  · rintro b hb
    exact Addition.enter_fails (hb.symm ▸ h)
  · exact (afterAll_apart happart before hcalls).index_unique hi hj

end Chunk
end RatScript
