import Soac.Semantics.Agree

/-!
# Evaluation in two stages

A pass that computes a part of an expression ahead runs statements first and what is left of the expression later. Slots
below `n` are those of the program; temporaries are allocated upwards from `n`, and those from `n` to `m` are in use when
the statements run. `TwoStage n m A B P` says that the statements `P` followed by `B` do what `A` does, whatever happens to
the temporaries in use in between; `Settled n m k A B P` says more: `P` does all of it, and `B` only reads the result out of
the temporaries from `m` to `k`. An expression that is settled may have other statements between its two stages.
-/

namespace Soac

variable {X K : Type} {α β : Type}

/-- Two states that differ only in the slots from `n` to `m`. -/
structure SameOutside {W : Type} (n m : Nat) (σ τ : State W) : Prop where
  world : τ.world = σ.world
  locals : ∀ x, x < n ∨ m ≤ x → τ.locals x = σ.locals x

/-- The second state holds what the first does in the slots from `n` to `m`. -/
def KeepsBetween {W : Type} (n m : Nat) (σ τ : State W) : Prop :=
  ∀ x, n ≤ x → x < m → τ.locals x = σ.locals x

theorem SameOutside.refl {W : Type} (n m : Nat) (σ : State W) : SameOutside n m σ σ := ⟨rfl, fun _ _ => rfl⟩

theorem Agree.sameOutside {W : Type} {n m : Nat} {σ τ ρ : State W} (h : Agree n σ τ) (hs : SameOutside n m τ ρ) :
    Agree n σ ρ :=
  ⟨hs.world.trans h.world, fun x hx => (hs.locals x (.inl hx)).trans (h.locals x hx)⟩

section

variable (R : Runtime K) (owned : Nat → Option LocalLocation)

/-- What the first stage comes to: it raises what `A` raises, or ends normally in a state of which `post` holds. -/
def FirstStage (n : Nat) (r : Outcome R.World α) (first : Outcome R.World Unit) (post : State R.World → Prop) : Prop :=
  match first with
  | (.error e, τ) => r.1 = .error e ∧ Agree n r.2 τ
  | (.ok (), τ) => post τ

/-- The statements `P` and then `B` do what `A` does. -/
def TwoStage (n m : Nat) (A B : State R.World → Outcome R.World α) (P : List (Instr X K)) : Prop :=
  ∀ σ σ', Agree n σ σ' → FirstStage R n (A σ) (execBody R owned P σ') fun τ =>
    KeepsBetween n m σ' τ ∧ ∀ ρ, SameOutside n m τ ρ →
      (B ρ).1 = (A σ).1 ∧ Agree n (A σ).2 (B ρ).2 ∧ KeepsBetween n m ρ (B ρ).2

/-- The statements `P` do what `A` does, and `B` reads its value in the slots from `m` to `k`. -/
def Settled (n m k : Nat) (A B : State R.World → Outcome R.World α) (P : List (Instr X K)) : Prop :=
  ∀ σ σ', Agree n σ σ' → FirstStage R n (A σ) (execBody R owned P σ') fun τ =>
    KeepsBetween n m σ' τ ∧ Agree n (A σ).2 τ ∧ ∃ v, (A σ).1 = .ok v ∧
      ∀ ρ, KeepsBetween m k τ ρ → (B ρ).1 = .ok v ∧ SameOutside m k ρ (B ρ).2

end

section

variable {R : Runtime K} {owned : Nat → Option LocalLocation} {n m k : Nat}
  {A B : State R.World → Outcome R.World α} {P Q : List (Instr X K)}

theorem execBody_append (P Q : List (Instr X K)) (σ : State R.World) :
    execBody R owned (P ++ Q) σ = (execBody R owned P σ).andThen fun _ σ => execBody R owned Q σ := by
  induction P generalizing σ with
  | nil => rfl
  | cons i is ih => simp only [List.cons_append, execBody, Outcome.andThen_assoc, ih]

variable {r : Outcome R.World α}

/-- A first stage in two parts. -/
theorem FirstStage.append {σ : State R.World} {post : State R.World → Prop}
    (h : FirstStage R n r (execBody R owned P σ) fun τ => FirstStage R n r (execBody R owned Q τ) post) :
    FirstStage R n r (execBody R owned (P ++ Q) σ) post := by
  rw [execBody_append]
  revert h
  generalize execBody R owned P σ = first
  obtain ⟨e, τ⟩ := first
  cases e with
  | ok u | error e => exact id

/-- A first stage whose state has more to say. -/
theorem FirstStage.imp {r' : Outcome R.World β} {first : Outcome R.World Unit}
    {post post' : State R.World → Prop} (h : FirstStage R n r first post)
    (herror : ∀ e, r.1 = .error e → r'.1 = .error e ∧ r'.2 = r.2) (hpost : ∀ τ, post τ → post' τ) :
    FirstStage R n r' first post' := by
  obtain ⟨e, τ⟩ := first
  cases e with
  | ok u => exact hpost τ h
  | error e =>
    obtain ⟨h1, h2⟩ := herror e h.1
    refine ⟨h1, ?_⟩
    rw [h2]
    exact h.2

variable {W : Type}

/-- An exception of the first piece is an exception of both. -/
theorem andThen_of_error {r : Outcome W α} {k : α → State W → Outcome W β} {e : Value}
    (h : r.1 = .error e) : (r.andThen k).1 = .error e ∧ (r.andThen k).2 = r.2 := by
  obtain ⟨r, τ⟩ := r
  obtain rfl : r = .error e := h
  exact ⟨rfl, rfl⟩

/-- Nothing is computed ahead. -/
theorem TwoStage.nil (h : ∀ σ σ', Agree n σ σ' → Matches n σ' (A σ) (B σ')) :
    TwoStage R owned n m A B ([] : List (Instr X K)) := by
  intro σ σ' hσ
  refine ⟨fun x _ _ => rfl, fun ρ hρ => ?_⟩
  have hm := h σ ρ (hσ.sameOutside hρ)
  exact ⟨hm.result, hm.agree, fun x hx _ => hm.keeps x hx⟩

/-- What follows and names no temporary may run after both stages. -/
theorem TwoStage.andThen {c d : α → State R.World → Outcome R.World β} (h : TwoStage R owned n m A B P)
    (hc : ∀ a τ τ', Agree n τ τ' → Matches n τ' (c a τ) (d a τ')) :
    TwoStage R owned n m (fun σ => (A σ).andThen c) (fun σ => (B σ).andThen d) P := by
  intro σ σ' hσ
  refine (h σ σ' hσ).imp (fun e he => andThen_of_error he) fun τ hτ => ⟨hτ.1, fun ρ hρ => ?_⟩
  dsimp only
  obtain ⟨hresult, hagree, hkeeps⟩ := hτ.2 ρ hρ
  generalize A σ = r at hresult hagree ⊢
  generalize B ρ = r' at hresult hagree hkeeps ⊢
  obtain ⟨e, τ₁⟩ := r
  obtain ⟨e', τ₂⟩ := r'
  obtain rfl : e' = e := hresult
  cases e' with
  | ok a =>
    have hm := hc a τ₁ τ₂ hagree
    exact ⟨hm.result, hm.agree, fun x hn hx => (hm.keeps x hn).trans (hkeeps x hn hx)⟩
  | error e => exact ⟨rfl, hagree, hkeeps⟩

/-- What is settled is computed in two stages. -/
theorem Settled.twoStage (hnm : n ≤ m) (h : Settled R owned n m k A B P) : TwoStage R owned n m A B P := by
  intro σ σ' hσ
  refine (h σ σ' hσ).imp (fun e he => ⟨he, rfl⟩) ?_
  rintro τ ⟨hkeeps, hagree, v, hv, hB⟩
  refine ⟨hkeeps, fun ρ hρ => ?_⟩
  obtain ⟨hresult, hsame⟩ := hB ρ fun x hx _ => hρ.locals x (.inr hx)
  refine ⟨hresult.trans hv.symm, ⟨?_, fun x hx => ?_⟩, fun x _ hx => hsame.locals x (.inl hx)⟩
  · exact hsame.world.trans (hρ.world.trans hagree.world)
  · have hxm : x < m := Nat.lt_of_lt_of_le hx hnm
    exact (hsame.locals x (.inl hxm)).trans ((hρ.locals x (.inl hx)).trans (hagree.locals x hx))

/-- What has no effect and always has one value is settled. -/
theorem Settled.of_inert {v : α} (hA : ∀ σ, A σ = (.ok v, σ)) (hB : ∀ σ, B σ = (.ok v, σ)) :
    Settled R owned n m k A B ([] : List (Instr X K)) := by
  intro σ σ' hσ
  refine ⟨fun x _ _ => rfl, ?_, v, ?_, fun ρ _ => ?_⟩
  · rw [hA]
    exact hσ
  · rw [hA]
  · rw [hB]
    exact ⟨rfl, SameOutside.refl _ _ _⟩

/-- Between the two stages of a settled operand the statements of those after it may run. -/
theorem Settled.andThen {A' B' : State R.World → Outcome R.World β} {γ : Type} (g : α → β → γ) (hnm : n ≤ m) (hmk : m ≤ k)
    (h : Settled R owned n m k A B P) (h' : TwoStage R owned n k A' B' Q) :
    TwoStage R owned n m (fun σ => (A σ).andThen fun a σ => (A' σ).andThen fun b σ => (.ok (g a b), σ))
      (fun σ => (B σ).andThen fun a σ => (B' σ).andThen fun b σ => (.ok (g a b), σ)) (P ++ Q) := by
  intro σ σ' hσ
  refine FirstStage.append ((h σ σ' hσ).imp (fun e he => andThen_of_error he) ?_)
  rintro τ ⟨hkeeps, hagree, v, hv, hB⟩
  obtain ⟨σ₁, hA⟩ : ∃ σ₁, A σ = (.ok v, σ₁) := ⟨(A σ).2, Prod.ext hv rfl⟩
  rw [hA] at hagree
  simp only [hA, Outcome.andThen_ok]
  refine (h' σ₁ τ hagree).imp (fun e he => andThen_of_error he) ?_
  rintro τ₁ ⟨hkeeps₁, hrest⟩
  refine ⟨fun x hn hx => (hkeeps₁ x hn (Nat.lt_of_lt_of_le hx hmk)).trans (hkeeps x hn hx), fun ρ hρ => ?_⟩
  -- the statements in between left the slots of the settled operand alone, and so does the change of `ρ`
  obtain ⟨hresult, hsame⟩ := hB ρ fun x hx hxk =>
    (hρ.locals x (.inr hx)).trans (hkeeps₁ x (Nat.le_trans hnm hx) hxk)
  obtain ⟨ρ₁, hBρ⟩ : ∃ ρ₁, B ρ = (.ok v, ρ₁) := ⟨(B ρ).2, Prod.ext hresult rfl⟩
  rw [hBρ] at hsame
  have hρ₁ : SameOutside n k τ₁ ρ₁ := by
    refine ⟨hsame.world.trans hρ.world, fun x hx => ?_⟩
    rcases hx with hx | hx
    · exact (hsame.locals x (.inl (Nat.lt_of_lt_of_le hx hnm))).trans (hρ.locals x (.inl hx))
    · exact (hsame.locals x (.inr hx)).trans (hρ.locals x (.inr (Nat.le_trans hmk hx)))
  obtain ⟨hresult', hagree', hkeeps'⟩ := hrest ρ₁ hρ₁
  simp only [hBρ, Outcome.andThen_ok]
  have hback : KeepsBetween n m ρ (B' ρ₁).2 := by
    intro x hn hx
    exact (hkeeps' x hn (Nat.lt_of_lt_of_le hx hmk)).trans (hsame.locals x (.inl hx))
  generalize A' σ₁ = r at hresult' hagree' ⊢
  generalize B' ρ₁ = r' at hresult' hagree' hback ⊢
  obtain ⟨e, τ₂⟩ := r
  obtain ⟨e', τ₃⟩ := r'
  obtain rfl : e' = e := hresult'
  cases e' with
  | ok b | error e => exact ⟨rfl, hagree', hback⟩

/-! ## Temporaries -/

/-- Statements that empty slots from `m` to `k`, whether they are filled or not. -/
def QuietDels (m k : Nat) (D : List (Instr X K)) : Prop :=
  ∀ i ∈ D, ∃ x id slot, i = .mk x (.del ⟨id, .local slot⟩ true) [] ∧ m ≤ slot ∧ slot < k

variable (x : X) (id : String) (slot : LocalLocation)

variable (owned) in
theorem eval_quietDel (σ : State R.World) :
    ∃ τ, eval R owned (.mk x (.del ⟨id, .local slot⟩ true) []) σ = (.ok .none, τ) ∧ τ.world = σ.world ∧
      ∀ y, y ≠ slot → τ.locals y = σ.locals y := by
  simp only [eval, evalList, Head.borrowedNames, State.borrowAll, Outcome.andThen_ok, Head.act, actDel]
  cases σ.locals slot with
  | some v => exact ⟨σ.clear slot, rfl, rfl, fun y hy => State.clear_locals_of_ne σ hy⟩
  | none => exact ⟨σ, rfl, rfl, fun y _ => rfl⟩

variable {D : List (Instr X K)}

variable (owned) in
/-- Emptying temporaries always ends normally and changes nothing else. -/
theorem execBody_quietDels (hD : QuietDels m k D) (σ : State R.World) :
    ∃ τ, execBody R owned D σ = (.ok (), τ) ∧ SameOutside m k σ τ := by
  induction D generalizing σ with
  | nil => exact ⟨σ, rfl, SameOutside.refl _ _ _⟩
  | cons i D ih =>
    obtain ⟨x, id, slot, rfl, hm, hk⟩ := hD i List.mem_cons_self
    obtain ⟨σ₁, h₁, hworld, hlocals⟩ := eval_quietDel owned x id slot σ
    obtain ⟨τ, hτ, hsame⟩ := ih (fun j hj => hD j (List.mem_cons_of_mem _ hj)) σ₁
    refine ⟨τ, by rw [execBody, h₁]; exact hτ, hsame.world.trans hworld, fun y hy => ?_⟩
    have hne : y ≠ slot := by
      rintro rfl
      rcases hy with hy | hy
      · exact absurd hm (Nat.not_le.mpr hy)
      · exact absurd hk (Nat.not_lt.mpr hy)
    exact (hsame.locals y hy).trans (hlocals y hne)

/-- A store in a slot of the frame. -/
theorem eval_store_local (i : Instr X K) (σ : State R.World) : eval R owned (.mk x (.store ⟨id, .local slot⟩) [i]) σ =
      (eval R owned i σ).andThen fun v σ => (.ok v, σ.set slot v) := by
  simp only [eval, evalList, Head.borrowedNames, State.borrowAll, Outcome.andThen_ok, Outcome.andThen_assoc]
  rfl

variable (R owned) in
/-- The slot a value was put in gives it back, and nothing but temporaries changes. -/
def ReadsBack (m t : Nat) (l : Instr X K) : Prop :=
  ∀ ρ : State R.World, ∀ v, ρ.locals t = some v →
    (eval R owned l ρ).1 = .ok v ∧ SameOutside m (t + 1) ρ (eval R owned l ρ).2

theorem readsBack_load {t : Nat} : ReadsBack R owned m t (.mk x (.load ⟨id, .local t⟩) [] : Instr X K) := by
  intro ρ v hv
  simp only [eval, evalList, Head.borrowedNames, State.borrowAll, Outcome.andThen_ok, Head.act, actLoad, State.readSlot, hv]
  exact ⟨trivial, SameOutside.refl _ _ _⟩

theorem readsBack_take {t : Nat} (hmt : m ≤ t) : ReadsBack R owned m t
    (.mk x (.takeOperand ⟨id, .local t⟩) [] : Instr X K) := by
  intro ρ v hv
  simp only [eval, evalList, Head.borrowedNames, State.borrowAll, Outcome.andThen_ok, Head.act, actTake, ResolvedName.localLocation,
    State.readSlot, hv]
  refine ⟨trivial, rfl, fun y hy => State.clear_locals_of_ne ρ ?_⟩
  rintro rfl
  rcases hy with hy | hy
  · exact absurd hmt (Nat.not_le.mpr hy)
  · exact absurd hy (Nat.not_succ_le_self _)

/-- An expression put in a temporary is settled; the temporaries of its operands may be emptied right away. -/
theorem TwoStage.lift {A : State R.World → Outcome R.World Value} {i l : Instr X K} {t : Nat}
    (hnm : n ≤ m) (hmt : m ≤ t) (h : TwoStage R owned n m A (eval R owned i) P)
    (hD : QuietDels m t D) (hl : ReadsBack R owned m t l) :
    Settled R owned n m (t + 1) A (eval R owned l) (P ++ .mk x (.store ⟨id, .local t⟩) [i] :: D) := by
  intro σ σ' hσ
  refine FirstStage.append ((h σ σ' hσ).imp (fun e he => ⟨he, rfl⟩) ?_)
  rintro τ ⟨hkeeps, hB⟩
  obtain ⟨hresult, hagree, hkeeps₁⟩ := hB τ (SameOutside.refl _ _ _)
  rw [execBody, eval_store_local]
  generalize eval R owned i τ = r' at hresult hagree hkeeps₁ ⊢
  generalize A σ = r at hresult hagree ⊢
  obtain ⟨e, τ₁⟩ := r'
  obtain ⟨e', σ₁⟩ := r
  obtain rfl : e = e' := hresult
  cases e with
  | error e => exact ⟨rfl, hagree⟩
  | ok v =>
    simp only [Outcome.andThen_ok]
    obtain ⟨τ₂, hτ₂, hsame⟩ := execBody_quietDels owned hD (τ₁.set t v)
    rw [hτ₂]
    have hbelow : ∀ y : LocalLocation, y < m → τ₂.locals y = τ₁.locals y := by
      intro y hy
      have hne : y ≠ t := Nat.ne_of_lt (Nat.lt_of_lt_of_le hy hmt)
      exact (hsame.locals y (.inl hy)).trans (State.set_locals_of_ne τ₁ hne v)
    have ht : τ₂.locals t = some v := (hsame.locals t (.inr (Nat.le_refl t))).trans (State.set_locals_self τ₁ t v)
    refine ⟨fun y hn hy => (hbelow y hy).trans ((hkeeps₁ y hn hy).trans (hkeeps y hn hy)), ⟨?_, fun y hy => ?_⟩, v, rfl,
      fun ρ hρ => hl ρ v ?_⟩
    · exact hsame.world.trans hagree.world
    · exact (hbelow y (Nat.lt_of_lt_of_le hy hnm)).trans (hagree.locals y hy)
    · exact (hρ t hmt (Nat.lt_succ_self t)).trans ht

/-! ## Statements and terminators -/

/-- The same result, in states that agree below `n`. -/
structure Outcome.Agrees {W : Type} (n : Nat) (r r' : Outcome W α) : Prop where
  result : r'.1 = r.1
  agree : Agree n r.2 r'.2

theorem Outcome.Agrees.andThen {r r' : Outcome W α} {c c' : α → State W → Outcome W β} (h : r.Agrees n r')
    (hc : ∀ a τ τ', Agree n τ τ' → (c a τ).Agrees n (c' a τ')) : (r.andThen c).Agrees n (r'.andThen c') := by
  obtain ⟨e, τ⟩ := r
  obtain ⟨e', τ'⟩ := r'
  obtain rfl : e' = e := h.result
  cases e' with
  | ok a => exact hc a τ τ' h.agree
  | error e => exact ⟨rfl, h.agree⟩

theorem Matches.agrees {σ' : State W} {r r' : Outcome W α} (h : Matches n σ' r r') : r.Agrees n r' :=
  ⟨h.result, h.agree⟩

/-- Both stages, one right after the other. -/
theorem TwoStage.run (h : TwoStage R owned n m A B P) {σ σ' : State R.World} (hσ : Agree n σ σ') :
    (A σ).Agrees n ((execBody R owned P σ').andThen fun _ σ => B σ) := by
  have hfirst := h σ σ' hσ
  generalize execBody R owned P σ' = first at hfirst ⊢
  obtain ⟨e, τ⟩ := first
  cases e with
  | error e => exact ⟨hfirst.1.symm, hfirst.2⟩
  | ok u =>
    obtain ⟨hresult, hagree, _⟩ := hfirst.2 τ (SameOutside.refl _ _ _)
    exact ⟨hresult, hagree⟩

/-- A statement, with the statements before it and the temporaries emptied after it. -/
theorem TwoStage.statement {A : State R.World → Outcome R.World Value} {i : Instr X K}
    (h : TwoStage R owned n m A (eval R owned i) P) (hnm : n ≤ m) (hD : QuietDels m k D) {σ σ' : State R.World}
    (hσ : Agree n σ σ') :
    ((A σ).andThen fun _ σ => (.ok (), σ)).Agrees n (execBody R owned (P ++ i :: D) σ') := by
  have hassoc : execBody R owned (P ++ i :: D) σ' =
      ((execBody R owned P σ').andThen fun _ σ => eval R owned i σ).andThen fun _ σ => execBody R owned D σ := by
    rw [execBody_append, Outcome.andThen_assoc]
    rfl
  rw [hassoc]
  refine (h.run hσ).andThen fun v τ τ' hτ => ?_
  obtain ⟨ρ, hρ, hsame⟩ := execBody_quietDels owned hD τ'
  rw [hρ]
  refine ⟨rfl, hsame.world.trans hτ.world, fun y hy => ?_⟩
  exact (hsame.locals y (.inl (Nat.lt_of_lt_of_le hy hnm))).trans (hτ.locals y hy)

end

end Soac
