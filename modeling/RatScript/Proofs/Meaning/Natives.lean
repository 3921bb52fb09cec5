import RatScript.Proofs.Meaning.Effect

/-!
Built-in runnables beside what they mean: from their arguments on the stack they leave the result
that the walk has, with the same lines read and written.
-/

namespace RatScript.Exec

open Machine

variable {line : Nat} {σ : Store} {m : Machine} {p : Program} {P : Array (Array Value)}
  {z : Setting} {low st : List Content} {fs : List Frame} {v : Value} {c d : Content}

theorem textArgument_follows (hm : m.Shows p P z σ st fs) (n : Native) {distance : Nat}
    (hlt : distance < st.length) (hc : st[st.length-1-distance]? = some c) :
    Follows line σ (Walk.lift line (c.spelling n)) m (textArgument n distance) fun s σ' t m' =>
      σ' = σ ∧ m' = m ∧ t = s := by
  obtain ⟨v, hpeek, hv⟩ := peek_shows hm hlt hc
  refine .skip hpeek (.skip (text?_eq_ok hv) ?_)
  cases c with
  | text content => exact .done rfl ⟨rfl, rfl, rfl⟩
  | _ => exact .skip (kind_eq_ok hv) (.raise rfl hm.toPresents)

theorem toNumber_follows (hm : m.Presents σ) (hv : m.heap.content? v = some c) :
    Follows line σ (Walk.lift line c.toNumber) m (toNumber v) fun n σ' k m' =>
      σ' = σ ∧ m' = m ∧ k = n := by
  cases v with
  | none | number | bool =>
    cases hv
    exact .done rfl ⟨rfl, rfl, rfl⟩
  | object r =>
    have hobject := object_eq_ok hv
    obtain ⟨o, _, rfl⟩ := Option.map_eq_some_iff.mp hv
    refine .skip hobject ?_
    cases o with
    | text content =>
      simp only [Content.ofObject, Content.object?, Content.toNumber]
      cases Number.parseFinite? (String.ofList (Text.trim content.toList)) with
      | some n => exact .done rfl ⟨rfl, rfl, rfl⟩
      | none => exact .raise rfl hm
    | native | runnable => exact .raise rfl hm

/-- A native that is given as many arguments as it takes. -/
theorem runNative_follows {x : String} {n : Native} {cs : List Content}
    (hm : m.Shows p P z σ (low++cs) fs) (hcount : n.arity = cs.length)
    (hroom : low.length < z.config.stackCapacity) :
    Follows line σ (Walk.native line x n cs) m (runNative n) fun c σ' _ m' =>
      σ'.locals = σ.locals ∧ m'.Shows p P z σ' (low++[c]) fs := by
  -- a plain value in place of the last argument, and a text there
  have hplain {σ' : Store} {m : Machine} {v : Value} {c d : Content}
      (hm : m.Shows p P z σ' (low++[c]) fs) (hlocals : σ'.locals = σ.locals)
      (hv : m.heap.content? v = some d) (hno : ∀ r, v ≠ .object r) :
      Follows line σ' (pure d) m (replaceTop v) fun c σ' _ m' =>
        σ'.locals = σ.locals ∧ m'.Shows p P z σ' (low++[c]) fs := by
    obtain ⟨m', hreplace, hm'⟩ := replaceTop_shows (loosen hm hv hno)
    exact .done hreplace ⟨hlocals, hm'⟩
  have htext {m : Machine} {c : Content} (hm : m.Shows p P z σ (low++[c]) fs) (content : String) :
      Follows line σ (pure (.text content)) m (do pop; pushText content) fun c σ' _ m' =>
        σ'.locals = σ.locals ∧ m'.Shows p P z σ' (low++[c]) fs := by
    obtain ⟨h, hpop, hm'⟩ := pop_shows hm
    obtain ⟨m'', hpush, hm''⟩ := pushText_shows hm' content hroom
    exact .skip hpop (.done hpush ⟨rfl, hm''⟩)
  cases n with
  | input =>
    obtain rfl := List.length_eq_zero_iff.mp hcount.symm
    rw [List.append_nil] at hm
    refine (readLine_follows hm).bind ?_
    rintro s σ' t m' ⟨rfl, hlocals, hm'⟩
    obtain ⟨m'', hpush, hm''⟩ := pushText_shows hm' t hroom
    exact .done hpush ⟨hlocals, hm''⟩
  | print =>
    obtain ⟨c, rfl⟩ := List.length_eq_one_iff.mp hcount.symm
    obtain ⟨v, hpeek, hv⟩ := top_shows hm
    refine .skip hpeek (.skip (display_eq_ok hv) ((writeLine_follows hm c.render).bind ?_))
    rintro _ σ' _ m' ⟨hlocals, _, hm'⟩
    exact hplain hm' hlocals rfl (by simp)
  | readFile =>
    obtain ⟨c, rfl⟩ := List.length_eq_one_iff.mp hcount.symm
    refine (textArgument_follows hm .readFile (by simp) (by simp)).bind ?_
    rintro _ σ path m ⟨rfl, rfl, rfl⟩
    refine .lead rfl (.skip rfl ?_)
    rw [hm.files]
    cases σ.files.readText path with
    | error e => exact .raise rfl hm.toPresents
    | ok content =>
      exact htext hm content
  | writeFile =>
    obtain ⟨c, d, rfl⟩ := List.length_eq_two.mp hcount.symm
    refine (textArgument_follows hm .writeFile (by simp) (by simp)).bind ?_
    rintro _ σ path m ⟨rfl, rfl, rfl⟩
    obtain ⟨_, v, _, hpeek, _, hv⟩ := both_shows hm
    refine .skip hpeek (.skip (display_eq_ok hv) (.lead rfl (.skip rfl ?_)))
    rw [hm.files]
    cases σ.files.append path d.render.toUTF8.toList with
    | error e => exact .raise rfl hm.toPresents
    | ok files =>
      refine (setFiles_follows hm files).bind ?_
      rintro _ σ' _ m' ⟨hlocals, hm'⟩
      have hm' : m'.Shows p P z σ' ((low++[c])++[d]) fs := by simpa using hm'
      obtain ⟨h, hpop, hm₁⟩ := pop_shows hm'
      obtain ⟨k, hpop', hm₂⟩ := pop_shows hm₁
      obtain ⟨m'', hpush, hm₃⟩ := push_shows (v := .none) (c := .none) hm₂ rfl hroom
      exact .skip hpop (.skip hpop' (.done hpush ⟨hlocals, hm₃⟩))
  | emptyFile =>
    obtain ⟨c, rfl⟩ := List.length_eq_one_iff.mp hcount.symm
    refine (textArgument_follows hm .emptyFile (by simp) (by simp)).bind ?_
    rintro _ σ path m ⟨rfl, rfl, rfl⟩
    refine .lead rfl (.skip rfl ?_)
    rw [hm.files]
    cases σ.files.truncate path with
    | error e => exact .raise rfl hm.toPresents
    | ok files =>
      refine (setFiles_follows hm files).bind ?_
      rintro _ σ' _ m' ⟨hlocals, hm'⟩
      exact hplain hm' hlocals rfl (by simp)
  | toNumber =>
    obtain ⟨c, rfl⟩ := List.length_eq_one_iff.mp hcount.symm
    obtain ⟨v, hpeek, hv⟩ := top_shows hm
    refine .skip hpeek ((toNumber_follows hm.toPresents hv).bind ?_)
    rintro _ σ n m ⟨rfl, rfl, rfl⟩
    exact hplain hm rfl rfl (by simp)
  | toBool =>
    obtain ⟨c, rfl⟩ := List.length_eq_one_iff.mp hcount.symm
    obtain ⟨v, hpeek, hv⟩ := top_shows hm
    exact .skip hpeek (.skip (isTruthy_eq_ok hv) (hplain hm rfl rfl (by simp)))
  | toText =>
    obtain ⟨c, rfl⟩ := List.length_eq_one_iff.mp hcount.symm
    obtain ⟨v, hpeek, hv⟩ := top_shows hm
    exact .skip hpeek (.skip (display_eq_ok hv) (htext hm _))
  | typeOf =>
    obtain ⟨c, rfl⟩ := List.length_eq_one_iff.mp hcount.symm
    obtain ⟨v, hpeek, hv⟩ := top_shows hm
    exact .skip hpeek (.skip (kind_eq_ok hv) (htext hm _))

theorem native_eq_raise {x : String} {n : Native} {cs : List Content} (h : n.arity ≠ cs.length) :
    Walk.native line x n cs = Walk.raise line (.argumentCount x n.arity cs.length) := by
  match n, cs with
  | .input, [] | .print, [_] | .readFile, [_] | .writeFile, [_, _] | .emptyFile, [_]
  | .toNumber, [_] | .toBool, [_] | .toText, [_] | .typeOf, [_] => exact (h rfl).elim
  | .input, _ :: _ => rfl
  | .print, [] | .readFile, [] | .emptyFile, [] | .toNumber, [] | .toBool, [] | .toText, []
  | .typeOf, [] | .writeFile, [] | .writeFile, [_] => rfl
  | .print, _ :: _ :: _ | .readFile, _ :: _ :: _ | .emptyFile, _ :: _ :: _
  | .toNumber, _ :: _ :: _ | .toBool, _ :: _ :: _ | .toText, _ :: _ :: _
  | .typeOf, _ :: _ :: _ | .writeFile, _ :: _ :: _ :: _ => rfl

/-- A call of a native: its own value below the arguments goes with them. -/
theorem callNative_follows {x : String} {cs : List Content}
    (hm : m.Shows p P z σ (low++d :: cs) fs) (hroom : low.length+1 < z.config.stackCapacity) :
    Follows line σ (Walk.callNative line x cs) m (callNative x cs.length) fun c σ' _ m' =>
      σ'.locals = σ.locals ∧ m'.Shows p P z σ' (low++[c]) fs := by
  refine (global_follows hm.toPresents x).bind ?_
  rintro c σ v m ⟨⟨rfl, rfl, hv⟩, _⟩
  refine .skip (object_eq_ok hv) ?_
  cases c with
  | native r n =>
    simp only [Content.object?]
    split
    · next hne =>
      rw [native_eq_raise hne]
      exact .raise rfl hm.toPresents
    · next heq =>
      have hsize := hm.length_eq
      simp only [List.length_append, List.length_cons] at hsize
      refine .skip rfl ?_
      rw [if_neg (by omega)]
      have hbase : m.stack.size-(cs.length+1) = low.length := by omega
      rw [hbase]
      have hm' : m.Shows p P z σ ((low++[d])++cs) fs := by simpa using hm
      have hnative : Follows line σ (Walk.native line x n cs) m (runNative n) _ :=
        runNative_follows hm' (Classical.not_not.mp heq) (by simpa using hroom)
      rw [← bind_pure (Walk.native line x n cs)]
      refine hnative.bind ?_
      rintro c σ' _ m' ⟨hlocals, hm'⟩
      obtain ⟨u, hpeek, hu⟩ := top_shows hm'
      rw [List.append_assoc] at hm'
      obtain ⟨m'', hcollapse, hm''⟩ := collapse_shows hm' hu (by omega)
      exact .skip hpeek (.done hcollapse ⟨hlocals, hm''⟩)
  | none | number | bool | text | runnable => exact .raise rfl hm.toPresents

end RatScript.Exec
