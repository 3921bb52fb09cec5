import RatScript.Proofs.Meaning.Passing

/-!
What evaluating an expression does not depend on and does not change: locals under names that it does
not mention, variables that it does not assign to, and, where a part of it fails, anything at all.
-/

namespace RatScript

open Stateful

namespace Expr

/-- Names of variables in an expression, from left to right; names that are called are left out. -/
def names : {k : ExprKind} → Expr k → List String
  | _, group inside => inside.names
  | _, unary _ inside => inside.names
  | _, name x => [x]
  | _, count x _ => [x]
  | _, assign x _ value => value.names++[x]
  | _, call _ arguments => arguments.names
  | _, head first => first.names
  | _, join left _ right => left.names++right.names
  | _, cons first rest => first.names++rest.names
  | _, _ => []

/-- Names of variables that are assigned to. -/
def targets : {k : ExprKind} → Expr k → List String
  | _, group inside => inside.targets
  | _, unary _ inside => inside.targets
  | _, count x _ => [x]
  | _, assign x _ value => value.targets++[x]
  | _, call _ arguments => arguments.targets
  | _, head first => first.targets
  | _, join left _ right => left.targets++right.targets
  | _, cons first rest => first.targets++rest.targets
  | _, _ => []

theorem mem_names_of_targets {k : ExprKind} {e : Expr k} {x : String} (hx : x ∈ e.targets) :
    x ∈ e.names := by
  induction e with
  | group _ ih | unary _ _ ih | call _ _ ih | head _ ih => exact ih hx
  | assign y _ _ ih => exact List.mem_append.mpr ((List.mem_append.mp hx).imp_left ih)
  | join _ _ _ ihl ihr | cons _ _ ihl ihr =>
    exact List.mem_append.mpr ((List.mem_append.mp hx).imp ihl ihr)
  | count => exact hx
  | number | text | literal | name | nil => cases hx

end Expr

/-! Faults that a value gives rise to. -/

/-- Faults of operators and of variables; evaluating an expression without calls raises no others. -/
def Fault.isJudgement : Fault → Bool
  | undefined _ | negate _ | complement _ | operands _ _ _ | integralOperands _ _ _ | shiftAmount _
  | assignRunnable _ | notCountable _ => true
  | _ => false

namespace Content

/-- What an operator gives is a result or a judgement on its operands. -/
def Judged {α : Type} (r : Except Fault α) : Prop := ∀ e, r = .error e → e.isJudgement = true

variable {α β : Type}

theorem Judged.ok (a : α) : Judged (.ok a : Except Fault α) := nofun

theorem Judged.error {e : Fault} (h : e.isJudgement = true) : Judged (.error e : Except Fault α) := by
  rintro _ ⟨⟩
  exact h

theorem Judged.map {r : Except Fault α} (h : Judged r) (f : α → β) : Judged (r.map f) := by
  cases r with
  | ok a => exact .ok _
  | error e => exact .error (h e rfl)

theorem judged_negate (c : Content) : Judged c.negate := by
  cases c with
  | number n => exact .ok _
  | _ => exact .error rfl

theorem judged_complement (c : Content) : Judged c.complement := by
  unfold complement
  split
  · exact .ok _
  · exact .error rfl

theorem judged_bitwise (op : Operator) (x y : Int32) : Judged (bitwise op x y) := by
  cases op with
  | shiftLeft | shiftRight =>
    simp only [bitwise]
    split
    · exact .ok _
    · exact .error rfl
  | _ => exact .ok _

theorem judged_apply (op : Operator) (a b : Content) : Judged (a.apply op b) := by
  unfold apply
  split
  · split
    · exact (judged_bitwise op _ _).map _
    · exact .error rfl
  · split
    · exact .ok _
    · split
      · exact .ok _
      · exact .error rfl
    · exact .error rfl

theorem judged_test (t : Test) (a b : Content) : Judged (test t a b) := by
  unfold test
  split
  · exact .ok _
  · exact .ok _
  · exact .ok _
  · exact .error rfl
  · exact .error rfl

theorem judged_counted (up : Bool) (c : Content) : Judged (c.counted up) := by
  cases c with
  | number n => exact .ok _
  | _ => exact .error rfl

theorem judged_applyUnary (u : Unary) (c : Content) : Judged (Expr.applyUnary u c) := by
  cases u with
  | negate => exact judged_negate c
  | not => exact .ok _
  | complement => exact judged_complement c

end Content

namespace Walk

variable {α β : Type}

/-- A part of a walk that is the same on every line, and that changes nothing where it fails. -/
class Judges (w : Nat → Walk α) : Prop where
  judges : ∀ σ, (∃ a τ, ∀ line, w line σ = .ok a τ) ∨
    ∃ e : Fault, e.isJudgement = true ∧ ∀ line, w line σ = .error (.failed ⟨e, line⟩) σ

namespace Judges

instance (a : α) : Judges (fun _ => (pure a : Walk α)) := ⟨fun σ => .inl ⟨a, σ, fun _ => rfl⟩⟩

theorem raise {e : Fault} (h : e.isJudgement = true) :
    Judges (fun line => (Walk.raise line e : Walk α)) :=
  ⟨fun _ => .inr ⟨e, h, fun _ => rfl⟩⟩

theorem lift {r : Except Fault α} (h : Content.Judged r) : Judges (fun line => Walk.lift line r) := by
  cases r with
  | ok a => exact inferInstanceAs (Judges fun _ => (pure a : Walk α))
  | error e => exact raise (h e rfl)

/-- What follows a part that only reads. -/
theorem bind {w : Nat → Walk α} {g : Nat → α → Walk β} (hw : Judges w)
    (hsame : ∀ line, Keeps Eq (w line)) (hg : ∀ a, Judges fun line => g line a) :
    Judges fun line => w line >>= g line where
  judges σ := by
    rcases hw.judges σ with ⟨a, τ, hok⟩ | ⟨e, he, herror⟩
    · obtain rfl : σ = τ := (hsame 0).of_ok (hok 0)
      rcases (hg a).judges σ with ⟨b, τ, hb⟩ | ⟨e, he, hb⟩
      · exact .inl ⟨b, τ, fun line => by simp only [Bind.bind, EStateM.bind, hok, hb]⟩
      · exact .inr ⟨e, he, fun line => by simp only [Bind.bind, EStateM.bind, hok, hb]⟩
    · exact .inr ⟨e, he, fun line => by simp only [Bind.bind, EStateM.bind, herror]⟩

instance (x : String) : Judges (fun line => global line x) where
  judges σ := by
    simp only [global, Bind.bind, EStateM.bind, get, getThe, MonadStateOf.get, EStateM.get]
    cases σ.globals x with
    | some c => exact .inl ⟨c, σ, fun _ => rfl⟩
    | none => exact .inr ⟨.undefined x, rfl, fun _ => rfl⟩

instance (line : Nat) (x : String) : Keeps Eq (global line x) := by
  refine Keeps.seq inferInstance fun _ => ?_
  split
  · infer_instance
  · exact inferInstanceAs (Keeps Eq (throw _ : Walk Content))

instance (x : String) : Judges (fun line => read line x) where
  judges σ := by
    simp only [read, Bind.bind, EStateM.bind, get, getThe, MonadStateOf.get, EStateM.get]
    cases σ.locals.lookup x with
    | some c => exact .inl ⟨c, σ, fun _ => rfl⟩
    | none => exact Judges.judges (w := fun line => global line x) σ

instance (x : String) : Judges (fun line => assignable line x) where
  judges σ := by
    simp only [assignable, Bind.bind, EStateM.bind, get, getThe, MonadStateOf.get, EStateM.get]
    cases σ.locals.lookup x with
    | some c => exact .inl ⟨c, σ, fun _ => rfl⟩
    | none =>
      have hcallable : Judges fun line => (do
          let c ← global line x
          if c.isCallable then Walk.raise line (.assignRunnable x) else return c : Walk Content) := by
        refine bind inferInstance inferInstance fun c => ?_
        split
        · exact raise rfl
        · infer_instance
      exact hcallable.judges σ

instance (line : Nat) (x : String) : Keeps Eq (assignable line x) := by
  have hraise (e : Fault) : Keeps Eq (Walk.raise line e : Walk Content) :=
    inferInstanceAs (Keeps Eq (throw _ : Walk Content))
  refine Keeps.seq inferInstance fun _ => ?_
  split <;> infer_instance

theorem keeps_lift (line : Nat) (r : Except Fault α) : Keeps Eq (Walk.lift line r) := by
  cases r with
  | ok a => exact inferInstanceAs (Keeps Eq (pure a : Walk α))
  | error e => exact inferInstanceAs (Keeps Eq (throw _ : Walk α))

/-- An assignment that is allowed is made. -/
instance (x : String) (c : Content) :
    Judges (fun _ => (do write x c; return c : Walk Content)) where
  judges _ := .inl ⟨c, _, fun _ => rfl⟩

end Judges
end Walk

/-! Locals under other names. -/

/-- Without the locals under a name. -/
def Store.without (y : String) (σ : Store) : Store :=
  {σ with locals := σ.locals.filter (·.1 != y)}

namespace Store

variable {x y : String} {locals : List (String × Content)}

theorem lookup_filter (h : x ≠ y) : (locals.filter (·.1 != y)).lookup x = locals.lookup x := by
  induction locals with
  | nil => rfl
  | cons l rest ih =>
    obtain ⟨z, c⟩ := l
    by_cases hz : z = y
    · subst z
      have hbeq : (x == y) = false := by simpa using h
      rw [List.filter_cons_of_neg (by simp), List.lookup_cons, hbeq]
      exact ih
    · rw [List.filter_cons_of_pos (by simpa using hz), List.lookup_cons, List.lookup_cons, ih]

theorem filter_rebind (h : x ≠ y) (c : Content) :
    (rebind x c locals).filter (·.1 != y) = rebind x c (locals.filter (·.1 != y)) := by
  induction locals with
  | nil => rfl
  | cons l rest ih =>
    obtain ⟨z, d⟩ := l
    by_cases hz : z = y
    · subst z
      rw [rebind, if_neg (Ne.symm h), List.filter_cons_of_neg (by simp),
        List.filter_cons_of_neg (by simp), ih]
    · by_cases hx : z = x
      · subst z
        simp [rebind, h]
      · rw [rebind, if_neg hx, List.filter_cons_of_pos (by simpa using hz),
          List.filter_cons_of_pos (by simpa using hz), rebind, if_neg hx, ih]

@[simp] theorem without_globals (σ : Store) : (σ.without y).globals = σ.globals := rfl

theorem lookup_without (h : x ≠ y) (σ : Store) :
    (σ.without y).locals.lookup x = σ.locals.lookup x := lookup_filter h

end Store

namespace Walk

variable {α β : Type} {y : String}

/-- A part of a walk to which the locals under a name make no difference. -/
class Ignores (y : String) (w : Walk α) : Prop where
  ignores : ∀ σ, w (σ.without y) =
    match w σ with
    | .ok a τ => .ok a (τ.without y)
    | .error s τ => .error s (τ.without y)

namespace Ignores

theorem done (a : α) : Ignores y (pure a : Walk α) := ⟨fun _ => rfl⟩

instance (a : α) : Ignores y (pure a : Walk α) := done a

instance (s : Stop) : Ignores y (throw s : Walk α) := ⟨fun _ => rfl⟩

theorem bind {w : Walk α} {g : α → Walk β} (hw : Ignores y w) (hg : ∀ a, Ignores y (g a)) :
    Ignores y (w >>= g) where
  ignores σ := by
    simp only [Bind.bind, EStateM.bind, hw.ignores σ]
    cases w σ with
    | ok a τ => exact (hg a).ignores τ
    | error s τ => rfl

instance (w : Walk α) (g : α → Walk β) [Ignores y w] [∀ a, Ignores y (g a)] :
    Ignores y (w >>= g) := bind inferInstance inferInstance

theorem choose (c : Prop) [Decidable c] {w u : Walk α} (hw : Ignores y w) (hu : Ignores y u) :
    Ignores y (if c then w else u) := by
  split <;> assumption

/-- What follows from a look at what is the same. -/
theorem look {g : Store → Walk α} (hsame : ∀ σ : Store, g (σ.without y) = g σ)
    (hg : ∀ σ, Ignores y (g σ)) : Ignores y (get >>= g) where
  ignores σ := by
    change g (σ.without y) (σ.without y) = _
    rw [hsame]
    exact (hg σ).ignores σ

theorem lift (line : Nat) (r : Except Fault α) : Ignores y (lift line r) := by
  cases r with
  | ok a => exact inferInstanceAs (Ignores y (pure a))
  | error e => exact inferInstanceAs (Ignores y (throw _))

instance (line : Nat) (e : Fault) : Ignores y (raise line e : Walk α) :=
  inferInstanceAs (Ignores y (throw _))

instance (line : Nat) (x : String) : Ignores y (global line x) := by
  refine look (fun _ => rfl) fun _ => ?_
  split <;> infer_instance

theorem read {x : String} (h : x ≠ y) (line : Nat) : Ignores y (read line x) := by
  refine look (fun σ => by rw [Store.lookup_without h]) fun σ => ?_
  split <;> infer_instance

theorem assignable {x : String} (h : x ≠ y) (line : Nat) : Ignores y (assignable line x) := by
  refine look (fun σ => by rw [Store.lookup_without h]) fun σ => ?_
  split
  · infer_instance
  · refine bind inferInstance fun c => ?_
    split <;> infer_instance

theorem write {x : String} (h : x ≠ y) (c : Content) : Ignores y (write x c) where
  ignores σ := by
    simp only [Walk.write, modify, modifyGet, MonadStateOf.modifyGet, EStateM.modifyGet,
      Store.lookup_without h]
    cases σ.locals.lookup x with
    | some d => simp only [Store.without, Store.filter_rebind h]
    | none => rfl

end Ignores
end Walk

/-- Locals under a name that an expression does not mention make no difference to it. -/
theorem Expr.eval_ignores {k : ExprKind} (e : Expr k) {y : String} (hcalls : e.calls = [])
    (hy : y ∉ e.names) (line : Nat) : Walk.Ignores y (e.eval line) := by
  open Walk in
  induction e with
  | number | text | literal | nil => exact .done _
  | group _ ih | head _ ih => exact ih hcalls hy
  | unary u _ ih => exact .bind (ih hcalls hy) fun _ => .lift line _
  | name x => exact .read (fun h => hy (by simp [names, h])) line
  | count x up =>
    have hx : x ≠ y := fun h => hy (by simp [names, h])
    exact .bind (.assignable hx line) fun _ => .bind (.lift line _) fun _ =>
      .bind (.write hx _) fun _ => .done _
  | assign x op value ih =>
    have hx : x ≠ y := fun h => hy (by simp [names, h])
    have hvalue := ih hcalls fun h => hy (by simp [names, h])
    cases op with
    | none =>
      have hset (c : Content) : Ignores y (do
          let _ ← assignable line x
          write x c
          return c : Walk Content) :=
        .bind (.assignable hx line) fun _ => .bind (.write hx c) fun _ => .done c
      exact .bind hvalue hset
    | some op =>
      have hset (c : Content) : Ignores y (do
          let d ← Walk.lift line ((← assignable line x).apply op c)
          write x d
          return d : Walk Content) :=
        .bind (.assignable hx line) fun _ => .bind (.lift line _) fun d => .bind (.write hx d) fun _ =>
          .done d
      exact .bind hvalue hset
  | call x args => simp [calls] at hcalls
  | join l i r ihl ihr =>
    simp only [calls, List.append_eq_nil_iff] at hcalls
    simp only [names, List.mem_append, not_or] at hy
    have hl := ihl hcalls.1 hy.1
    have hr := ihr hcalls.2 hy.2
    cases i with
    | operator op => exact .bind hl fun _ => .bind hr fun _ => .lift line _
    | comparison t => exact .bind hl fun _ => .bind hr fun _ => .bind (.lift line _) fun _ => .done _
    | and => exact .bind hl fun _ => .choose _ hr (.done _)
    | or => exact .bind hl fun _ => .choose _ (.done _) hr
  | cons first rest ihf ihr =>
    simp only [calls, List.append_eq_nil_iff] at hcalls
    simp only [names, List.mem_append, not_or] at hy
    exact .bind (ihf hcalls.1 hy.1) fun _ => .bind (ihr hcalls.2 hy.2) fun _ => .done _

/-! Variables that are not assigned to. -/

namespace Store

variable {xs : List String} {σ τ : Store} {x : String}

theorem lookup_none_iff {locals : List (String × Content)} :
    locals.lookup x = none ↔ x ∉ locals.map Prod.fst := by
  simp only [List.lookup_eq_none_iff, List.mem_map, not_exists, not_and, bne_iff_ne, ne_eq]
  exact forall₂_congr fun l _ => not_congr eq_comm

/-- Nothing changes but variables with names of a list: of each the first local, or the global where
there is no such local. -/
structure Spares (xs : List String) (σ τ : Store) : Prop where
  names : τ.locals.map Prod.fst = σ.locals.map Prod.fst
  cells : ∀ k, (∀ x ∈ xs, View.slotIn x ((σ.locals.map Prod.fst).map some) ≠ some k) →
    τ.cells[k]? = σ.cells[k]?
  globals : ∀ x, x ∉ xs ∨ x ∈ σ.locals.map Prod.fst → τ.globals x = σ.globals x
  input : τ.input = σ.input
  output : τ.output = σ.output
  files : τ.files = σ.files
  visited : τ.visited = σ.visited

instance : Std.Refl (Spares xs) :=
  ⟨fun _ => ⟨rfl, fun _ _ => rfl, fun _ _ => rfl, rfl, rfl, rfl, rfl⟩⟩

instance : Trans (Spares xs) (Spares xs) (Spares xs) where
  trans h k := {
    names := k.names.trans h.names
    cells i hi := (k.cells i (h.names ▸ hi)).trans (h.cells i hi)
    globals x hx := (k.globals x (h.names ▸ hx)).trans (h.globals x hx)
    input := k.input.trans h.input
    output := k.output.trans h.output
    files := k.files.trans h.files
    visited := k.visited.trans h.visited }

end Store

namespace Walk

open Store (Spares)

variable {xs : List String} {α : Type}

theorem spares_of_same {w : Walk α} [h : Keeps Eq w] : Keeps (Spares xs) w where
  keeps σ := by
    have hsame : σ = after w σ := h.keeps σ
    rw [← hsame]
    exact Std.Refl.refl σ

theorem read_spares (line : Nat) (x : String) : Keeps (Spares xs) (read line x) := by
  refine Keeps.seq inferInstance fun _ => ?_
  split
  · infer_instance
  · exact spares_of_same

theorem write_spares {x : String} (hx : x ∈ xs) (c : Content) : Keeps (Spares xs) (write x c) := by
  refine Keeps.modify fun σ => ?_
  split
  · next d hd =>
    refine ⟨Store.names_rebind x c σ.locals, fun k hk => ?_, fun _ _ => rfl, rfl, rfl, rfl, rfl⟩
    have hx := hk x hx
    rw [List.map_map] at hx
    cases hslot : View.slotIn x (σ.locals.map fun l => some l.1) with
    | none =>
      rw [View.lookup_of_slotIn_none hslot] at hd
      cases hd
    | some j =>
      obtain ⟨_, _, _, _, hset⟩ := View.lookup_of_slotIn hslot
      have hne : j ≠ k := by
        rintro rfl
        exact hx hslot
      rw [Store.cells, hset, List.getElem?_set_ne hne]
      rfl
  · next hnone =>
    refine ⟨rfl, fun _ _ => rfl, fun y hy => Function.update_of_ne ?_ _ _, rfl, rfl, rfl, rfl⟩
    rintro rfl
    exact hy.elim (· hx) (Store.lookup_none_iff.mp hnone)

theorem lift_spares (line : Nat) (r : Except Fault α) : Keeps (Spares xs) (lift line r) := by
  have hlift : Keeps Eq (lift line r) := Judges.keeps_lift line r
  exact spares_of_same

theorem choose_spares (c : Prop) [Decidable c] {w u : Walk α} (hw : Keeps (Spares xs) w)
    (hu : Keeps (Spares xs) u) : Keeps (Spares xs) (if c then w else u) := by
  split <;> assumption

theorem assignable_spares (line : Nat) (x : String) : Keeps (Spares xs) (assignable line x) :=
  spares_of_same

end Walk

/-- Evaluating an expression changes the variables that it assigns to and nothing else. -/
theorem Expr.eval_spares {k : ExprKind} (e : Expr k) {xs : List String} (hcalls : e.calls = [])
    (htargets : e.targets ⊆ xs) (line : Nat) : Keeps (Store.Spares xs) (e.eval line) := by
  open Walk in
  induction e with
  | number | text | literal | nil => exact ⟨fun σ => Std.Refl.refl σ⟩
  | group _ ih | head _ ih => exact ih hcalls htargets
  | unary u _ ih => exact .seq (ih hcalls htargets) fun _ => lift_spares line _
  | name x => exact read_spares line x
  | count x up =>
    have hx : x ∈ xs := htargets (by simp [targets])
    exact .seq (assignable_spares line x) fun _ => .seq (lift_spares line _) fun c =>
      .seq (write_spares hx c) fun _ => ⟨fun σ => Std.Refl.refl σ⟩
  | assign x op value ih =>
    have hx : x ∈ xs := htargets (by simp [targets])
    have hvalue := ih hcalls fun y hy => htargets (by simp [targets, hy])
    cases op with
    | none =>
      have hset (c : Content) : Keeps (Store.Spares xs) (do
          let _ ← assignable line x
          write x c
          return c : Walk Content) :=
        .seq (assignable_spares line x) fun _ => .seq (write_spares hx c) fun _ => inferInstance
      exact .seq hvalue hset
    | some op =>
      have hset (c : Content) : Keeps (Store.Spares xs) (do
          let d ← Walk.lift line ((← assignable line x).apply op c)
          write x d
          return d : Walk Content) :=
        .seq (assignable_spares line x) fun _ => .seq (lift_spares line _) fun d =>
          .seq (write_spares hx d) fun _ => inferInstance
      exact .seq hvalue hset
  | call x args => simp [calls] at hcalls
  | join l i r ihl ihr =>
    simp only [calls, List.append_eq_nil_iff] at hcalls
    have hl := ihl hcalls.1 fun y hy => htargets (List.mem_append_left _ hy)
    have hr := ihr hcalls.2 fun y hy => htargets (List.mem_append_right _ hy)
    cases i with
    | operator op => exact .seq hl fun _ => .seq hr fun _ => lift_spares line _
    | comparison t => exact .seq hl fun _ => .seq hr fun _ => .seq (lift_spares line _) fun _ =>
        ⟨fun σ => Std.Refl.refl σ⟩
    | and => exact .seq hl fun _ => choose_spares _ hr ⟨fun σ => Std.Refl.refl σ⟩
    | or => exact .seq hl fun _ => choose_spares _ ⟨fun σ => Std.Refl.refl σ⟩ hr
  | cons first rest ihf ihr =>
    simp only [calls, List.append_eq_nil_iff] at hcalls
    exact .seq (ihf hcalls.1 fun y hy => htargets (List.mem_append_left _ hy)) fun _ =>
      .seq (ihr hcalls.2 fun y hy => htargets (List.mem_append_right _ hy)) fun _ =>
      ⟨fun σ => Std.Refl.refl σ⟩

end RatScript
