import Mathlib.Data.List.Induction
import Mathlib.Data.List.Nodup

/-!
# Inversion of fallible computations

What a computation in `Except` went through when it succeeded: the rules that take a `do` block apart one step at a time.
-/

namespace Soac.Fallible

open List

variable {ε α β : Type}

@[simp]
theorem ok_bind (a : α) (f : α → Except ε β) : Except.ok a >>= f = f a :=
  rfl

variable {f : α → Except ε β} {as : List α} {x : Except ε α} {b : β}

/-- Two steps succeed exactly when both do. -/
theorem bind_eq_ok : x >>= f = .ok b ↔ ∃ a, x = .ok a ∧ f a = .ok b := by
  cases x with
  | error e =>
    constructor
    · intro h
      cases h
    · rintro ⟨_, h, _⟩
      cases h
  | ok a =>
    constructor
    · intro h
      exact ⟨a, rfl, h⟩
    · rintro ⟨_, ha, h⟩
      cases ha
      exact h

theorem except_bind_eq_ok : x.bind f = .ok b ↔ ∃ a, x = .ok a ∧ f a = .ok b :=
  bind_eq_ok

theorem map_eq_ok {f : α → β} : x.map f = .ok b ↔ ∃ a, x = .ok a ∧ f a = b := by
  have hbind : x.map f = x >>= fun a => .ok (f a) := by cases x <;> rfl
  simp only [hbind, bind_eq_ok, Except.ok.injEq]

/-- A record is built from the result of a step, which is one of its fields. -/
theorem build_eq_ok {mk : α → β} {get : β → α} (hget : ∀ a, get (mk a) = a) :
    (x >>= fun a => .ok (mk a)) = .ok b ↔ x = .ok (get b) ∧ b = mk (get b) := by
  rw [bind_eq_ok]
  constructor
  · rintro ⟨a, ha, hb⟩
    cases hb
    rw [hget]
    exact ⟨ha, rfl⟩
  · rintro ⟨ha, hb⟩
    exact ⟨get b, ha, congrArg Except.ok hb.symm⟩

/-- A list maps to the list of its results. -/
theorem mapM_eq_ok_iff {bs : List β} : as.mapM f = .ok bs ↔ List.Forall₂ (fun a b => f a = .ok b) as bs := by
  induction as generalizing bs with
  | nil => simp [pure, Except.pure, eq_comm]
  | cons a as ih => simp [bind_eq_ok, List.forall₂_cons_left_iff, ih, pure, Except.pure, eq_comm (b := bs)]

theorem mapM_eq_some_iff {f : α → Option β} {bs : List β} :
    as.mapM f = some bs ↔ List.Forall₂ (fun a b => f a = some b) as bs := by
  induction as generalizing bs with
  | nil => simp [eq_comm]
  | cons a as ih => simp [Option.bind_eq_some_iff, List.forall₂_cons_left_iff, ih, eq_comm (b := bs)]

/-- A map whose every step succeeds. -/
theorem exists_mapM_eq_ok (h : ∀ a ∈ as, ∃ b, f a = .ok b) : ∃ bs, as.mapM f = .ok bs := by
  induction as with
  | nil => exact ⟨[], rfl⟩
  | cons a as ih =>
    obtain ⟨b, hb⟩ := h a mem_cons_self
    obtain ⟨bs, hbs⟩ := ih fun a' ha' => h a' (mem_cons_of_mem _ ha')
    refine ⟨b :: bs, ?_⟩
    rw [mapM_cons, hb, hbs]
    rfl

theorem exists_eq_ok (h : x.isOk = true) : ∃ a, x = .ok a := by
  cases x with
  | error e => cases h
  | ok a => exact ⟨a, rfl⟩

theorem isOk_bind {ok : Bool} (h : ∀ a, x = .ok a → (f a).isOk = ok) :
    (x >>= f).isOk = (x.isOk && ok) := by
  cases x with
  | error e => rfl
  | ok a => exact h a rfl

theorem isOk_map (x : Except ε α) (g : α → β) : (x.map g).isOk = x.isOk := by
  cases x <;> rfl

theorem isOk_mapM (f : α → Except ε β) (as : List α) : (as.mapM f).isOk = as.all fun a => (f a).isOk := by
  induction as with
  | nil => rfl
  | cons a as ih =>
    rw [mapM_cons, all_cons, ← ih]
    cases f a with
    | error e => rfl
    | ok b => cases as.mapM f <;> rfl

theorem isOk_option_mapM (f : α → Except ε β) (a : Option α) : (a.mapM f).isOk = a.all fun a => (f a).isOk := by
  cases a with
  | none => rfl
  | some a => exact isOk_map (f a) some

/-- A list whose elements a function leaves as they are. -/
theorem mapM_eq_self {f : α → Except ε α} (h : ∀ a ∈ as, f a = .ok a) : as.mapM f = .ok as :=
  mapM_eq_ok_iff.mpr (List.forall₂_same.mpr h)

/-- Looking up every index of a list gives the list. -/
theorem mapM_range {f : Nat → Except ε β} {bs : List β} (h : ∀ i b, bs[i]? = some b → f i = .ok b) :
    (List.range bs.length).mapM f = .ok bs := by
  induction bs using List.reverseRecOn with
  | nil => rfl
  | append_singleton bs b ih =>
    have hlast : f bs.length = .ok b := h _ _ List.getElem?_concat_length
    have hinit : (List.range bs.length).mapM f = .ok bs := by
      refine ih fun i b' hb => h i b' ?_
      rw [List.getElem?_append_left (List.getElem?_eq_some_iff.mp hb).1, hb]
    rw [length_append, length_singleton, range_succ, mapM_append, hinit, ok_bind, mapM_cons,
      hlast]
    rfl

/-- An optional step that succeeds. -/
theorem option_mapM_eq_ok {a : Option α} {b : Option β} (h : a.mapM f = .ok b) :
    (a = none ∧ b = none) ∨ ∃ a' b', a = some a' ∧ b = some b' ∧ f a' = .ok b' := by
  cases a with
  | none =>
    cases h
    exact .inl ⟨rfl, rfl⟩
  | some a =>
    obtain ⟨b', hb, h⟩ := map_eq_ok.mp (show (f a).map some = .ok b from h)
    exact .inr ⟨a, b', rfl, h.symm, hb⟩

/-- What every step of a fold keeps holds of its result. -/
theorem foldlM_keeps {P : β → Prop} {step : β → α → Option β} (hs : ∀ b a b', P b → step b a = some b' → P b')
    {b' : β} (hb : P b) (h : as.foldlM step b = some b') : P b' := by
  induction as generalizing b with
  | nil =>
    cases h
    exact hb
  | cons a as ih =>
    obtain ⟨b₁, h₁, h⟩ := Option.bind_eq_some_iff.mp h
    exact ih (hs b a b₁ hb h₁) h

/-- A fold with an item that fails in every state. -/
theorem exists_foldlM_eq_error {step : β → α → Except ε β} {a : α} (ha : a ∈ as)
    (hstep : ∀ b, ∃ e, step b a = .error e) (b : β) : ∃ e, as.foldlM step b = .error e := by
  induction as generalizing b with
  | nil => cases ha
  | cons a' as ih =>
    rw [foldlM_cons]
    cases h : step b a' with
    | error e => exact ⟨e, rfl⟩
    | ok b' =>
      rcases mem_cons.mp ha with rfl | ha
      · obtain ⟨e, he⟩ := hstep b
        rw [he] at h
        cases h
      · exact ih ha b'

/-! ## Searches -/

/-- A search in a list in which at most one element is looked for. -/
theorem find?_eq_some_iff_of_unique {p : α → Bool} {a : α} (h : ∀ b ∈ as, p b → ∀ c ∈ as, p c → b = c) :
    as.find? p = some a ↔ a ∈ as ∧ p a := by
  constructor
  · exact fun ha => ⟨mem_of_find?_eq_some ha, find?_some ha⟩
  · rintro ⟨ha, hp⟩
    obtain ⟨b, hb⟩ := Option.isSome_iff_exists.mp (find?_isSome.mpr ⟨a, ha, hp⟩)
    rw [hb, h b (mem_of_find?_eq_some hb) (find?_some hb) a ha hp]

/-- A search by keys that are distinct. -/
theorem find?_key_eq_some_iff [DecidableEq β] {key : α → β} (h : (as.map key).Nodup) {a : α} :
    as.find? (key · = b) = some a ↔ a ∈ as ∧ key a = b := by
  rw [find?_eq_some_iff_of_unique fun c hc hcb d hd hdb => inj_on_of_nodup_map h hc hd (by simp_all), decide_eq_true_eq]

/-! ## Computations that decide -/

/-- The computation succeeds exactly when `P` holds, and then with a result of `Q`. -/
def Decides (P : Prop) (Q : α → Prop) : Except ε α → Prop
  | .ok a => P ∧ Q a
  | .error _ => ¬P

namespace Decides

variable {P P' : Prop} {Q Q' : α → Prop}

theorem imp (h : Decides P Q x) (hp : P ↔ P') (hq : ∀ a, P → Q a → Q' a) : Decides P' Q' x := by
  cases x with
  | ok a => exact ⟨hp.mp h.1, hq a h.1 h.2⟩
  | error e => exact fun hp' => h (hp.mpr hp')

/-- Two steps decide what both decide. -/
theorem bind (h : Decides P Q x) {R : β → Prop} {g : α → Except ε β} (hg : ∀ a, P → Q a → Decides P' R (g a)) :
    Decides (P ∧ P') R (x >>= g) := by
  cases x with
  | error e => exact fun hp => h hp.1
  | ok a =>
    have hga := hg a h.1 h.2
    change Decides _ _ (g a)
    cases hr : g a with
    | error e =>
      rw [hr] at hga
      exact fun hp => hga hp.2
    | ok b =>
      rw [hr] at hga
      exact ⟨⟨h.1, hga.1⟩, hga.2⟩

/-- When the results of `Q` are results of `Q'` under one condition, it decides whether `Q'` is met. -/
theorem iff_imp (h : Decides P Q x) {C : Prop} (hc : ∀ a, P → Q a → (Q' a ↔ C)) : Decides P Q' x ↔ (P → C) := by
  cases x with
  | ok a => exact ⟨fun h' _ => (hc a h.1 h.2).mp h'.2, fun h' => ⟨h.1, (hc a h.1 h.2).mpr (h' h.1)⟩⟩
  | error e => exact ⟨fun _ hp => absurd hp h, fun _ => h⟩

end Decides

end Soac.Fallible

namespace Soac

/-! ## Lists related element by element -/

theorem forall₂_mem_right {α β : Type} {r : α → β → Prop} {as : List α} {bs : List β} (h : List.Forall₂ r as bs)
    {b : β} (hb : b ∈ bs) : ∃ a ∈ as, r a b := by
  induction h with
  | nil => cases hb
  | @cons a b' as bs hr _ ih =>
    rcases List.mem_cons.mp hb with rfl | hb
    · exact ⟨a, List.mem_cons_self, hr⟩
    · obtain ⟨a', ha', hr'⟩ := ih hb
      exact ⟨a', List.mem_cons_of_mem _ ha', hr'⟩

theorem forall₂_mem_left {α β : Type} {r : α → β → Prop} {as : List α} {bs : List β} (h : List.Forall₂ r as bs)
    {a : α} (ha : a ∈ as) : ∃ b ∈ bs, r a b :=
  forall₂_mem_right h.flip ha

theorem map_eq_of_forall₂ {α β γ : Type} {r : α → β → Prop} {f : α → γ} {g : β → γ} (hr : ∀ a b, r a b → g b = f a)
    {as : List α} {bs : List β} (h : List.Forall₂ r as bs) : bs.map g = as.map f := by
  induction h with
  | nil => rfl
  | cons hab _ ih => rw [List.map_cons, List.map_cons, hr _ _ hab, ih]

theorem map_fst_zip_sublist {α β : Type} (as : List α) (bs : List β) : ((as.zip bs).map Prod.fst).Sublist as := by
  rw [List.zip_eq_zip_take_min, List.map_fst_zip (by simp)]
  exact List.take_sublist _ _

end Soac
