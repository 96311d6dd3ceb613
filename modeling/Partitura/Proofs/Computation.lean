import Mathlib.Data.List.Forall2
import Partitura.Session

/-!
# What computations come to

Outcomes may fail, draws also use up a stream, runs also collect warnings. The lemmas here take a
computation that has succeeded apart into its steps.

For draws and runs the states in between are forgotten: `Yields x` says that *some* state leads to
`x`. A property of a result that holds whatever was drawn needs no more, and the three kinds of
computation then come apart in the same way. Traversals do so member by member, in order, which is
shown once for all of them (`mapM_of_bind`).

Where the states matter, two computations are compared step by step: two runs that stop and go on
together (`Run.Alike`), or a draw that keeps to the stream of another as far as that one comes
(`Draw.Follows`). A single run may be shown never to stop (`Run.Total`), and a single draw to leave the
stream as it is (`Draw.Drawless`).
-/

namespace Partitura

variable {β γ : Type}

/-- What is on the right of two related lists comes from the left. -/
theorem exists_of_mem_right {R : β → γ → Prop} {xs : List β} {ys : List γ}
    (h : List.Forall₂ R xs ys) {y : γ} (hy : y ∈ ys) : ∃ x ∈ xs, R x y := by
  induction h with
  | nil => cases hy
  | @cons x y' xs ys hxy _ ih =>
      rcases List.mem_cons.1 hy with rfl | hy
      · exact ⟨x, List.mem_cons_self, hxy⟩
      · obtain ⟨x', hx', hR⟩ := ih hy
        exact ⟨x', List.mem_cons_of_mem x hx', hR⟩

theorem mem_of_lookup {table : List (String × β)} {name : String} {x : β}
    (h : table.lookup name = some x) : (name, x) ∈ table := by
  obtain ⟨before, after, rfl, _⟩ := List.lookup_eq_some_iff.1 h
  exact List.mem_append_right before List.mem_cons_self

theorem eq_map_of_forall₂ {g : β → γ} {xs : List β} {ys : List γ}
    (h : List.Forall₂ (fun x y => y = g x) xs ys) : ys = xs.map g := by
  induction h with
  | nil => rfl
  | cons hxy _ ih => rw [List.map_cons, hxy, ih]

/-- Relations of members one after the other. -/
theorem forall₂_comp {δ : Type} {R : β → γ → Prop} {S : γ → δ → Prop} {T : β → δ → Prop}
    (hcomp : ∀ {x y z}, R x y → S y z → T x z) {xs : List β} {ys : List γ} {zs : List δ}
    (hR : List.Forall₂ R xs ys) (hS : List.Forall₂ S ys zs) : List.Forall₂ T xs zs := by
  induction hR generalizing zs with
  | nil =>
      cases hS
      exact .nil
  | cons hxy _ ih =>
      cases hS with
      | cons hyz hS => exact .cons (hcomp hxy hyz) (ih hS)

/-- Traversals come apart wherever single steps do. -/
theorem mapM_of_bind {m : Type → Type} [Monad m] [LawfulMonad m]
    (Y : ∀ {δ : Type}, m δ → δ → Prop)
    (of_pure : ∀ {δ : Type} {x y : δ}, Y (pure x) y → x = y)
    (of_bind : ∀ {δ ε : Type} {r : m δ} {f : δ → m ε} {y : ε},
      Y (r >>= f) y → ∃ x, Y r x ∧ Y (f x) y)
    {f : β → m γ} {xs : List β} {ys : List γ} (h : Y (xs.mapM f) ys) :
    List.Forall₂ (fun x y => Y (f x) y) xs ys := by
  induction xs generalizing ys with
  | nil =>
      rw [List.mapM_nil] at h
      cases of_pure h
      exact .nil
  | cons x xs ih =>
      rw [List.mapM_cons] at h
      obtain ⟨y, hy, h⟩ := of_bind h
      obtain ⟨zs, hzs, h⟩ := of_bind h
      cases of_pure h
      exact .cons hy (ih hzs)

/-- A property of pure results that passes from two steps to both of them passes from the members of
a traversal to the whole. -/
theorem mapM_closed {m : Type → Type} [Monad m] [LawfulMonad m] (P : ∀ {δ : Type}, m δ → Prop)
    (of_pure : ∀ {δ : Type} (x : δ), P (pure x))
    (of_bind : ∀ {δ ε : Type} {r : m δ} {f : δ → m ε}, P r → (∀ x, P (f x)) → P (r >>= f))
    {f : β → m γ} {xs : List β} (hf : ∀ x ∈ xs, P (f x)) : P (xs.mapM f) := by
  induction xs with
  | nil => exact of_pure []
  | cons x xs ih =>
      rw [List.mapM_cons]
      have hrest : P (xs.mapM f) := ih fun z hz => hf z (List.mem_cons_of_mem x hz)
      exact of_bind (hf x List.mem_cons_self) fun y => of_bind hrest fun ys => of_pure (y :: ys)

/-! ## Outcomes -/

namespace Outcome

theorem pure_ok {x y : β} (h : (pure x : Outcome β) = .ok y) : x = y :=
  Except.ok.inj h

theorem ok_bind (x : β) (f : β → Outcome γ) : (.ok x : Outcome β) >>= f = f x :=
  rfl

theorem error_bind (why : Fault) (f : β → Outcome γ) :
    (.error why : Outcome β) >>= f = .error why :=
  rfl

theorem bind_ok {r : Outcome β} {f : β → Outcome γ} {y : γ} (h : r >>= f = .ok y) :
    ∃ x, r = .ok x ∧ f x = .ok y := by
  cases r with
  | error why => cases h
  | ok x => exact ⟨x, rfl, h⟩

theorem mapM_ok {f : β → Outcome γ} {xs : List β} {ys : List γ} (h : xs.mapM f = .ok ys) :
    List.Forall₂ (fun x y => f x = .ok y) xs ys :=
  mapM_of_bind (fun (r : Outcome _) x => r = .ok x) pure_ok bind_ok h

/-- A traversal comes to what its steps come to. -/
theorem mapM_of_forall₂ {f : β → Outcome γ} {xs : List β} {ys : List γ}
    (h : List.Forall₂ (fun x y => f x = .ok y) xs ys) : xs.mapM f = .ok ys := by
  induction h with
  | nil => rfl
  | cons hx _ ih =>
      rw [List.mapM_cons, hx, ih]
      rfl

/-- Where every step has a known result, the traversal is a map. -/
theorem mapM_eq_map {f : β → Outcome γ} {g : β → γ} {xs : List β} (h : ∀ x ∈ xs, f x = .ok (g x)) :
    xs.mapM f = .ok (xs.map g) :=
  mapM_of_forall₂ (List.forall₂_map_right_iff.2 (List.forall₂_same.2 h))

/-- What reads back every element reads back the list. -/
theorem mapM_map_eq_self {f : β → Outcome γ} {g : γ → β} {ys : List γ}
    (h : ∀ y ∈ ys, f (g y) = .ok y) : (ys.map g).mapM f = .ok ys :=
  mapM_of_forall₂ (List.forall₂_map_left_iff.2 (List.forall₂_same.2 h))

/-- A traversal succeeds if every step does. -/
theorem exists_mapM {f : β → Outcome γ} {xs : List β} (h : ∀ x ∈ xs, ∃ y, f x = .ok y) :
    ∃ ys, xs.mapM f = .ok ys := by
  induction xs with
  | nil => exact ⟨[], rfl⟩
  | cons x xs ih =>
      obtain ⟨y, hy⟩ := h x List.mem_cons_self
      obtain ⟨ys, hys⟩ := ih fun z hz => h z (List.mem_cons_of_mem x hz)
      rw [List.mapM_cons, hy, hys]
      exact ⟨y :: ys, rfl⟩

theorem bind_ok_iff {r : Outcome β} {f : β → Outcome γ} {y : γ} :
    r >>= f = .ok y ↔ ∃ x, r = .ok x ∧ f x = .ok y := by
  refine ⟨bind_ok, ?_⟩
  rintro ⟨x, rfl, h⟩
  exact h

/-- A traversal checks every element, and changes it on its own. -/
theorem mapM_ok_iff {f : β → Outcome γ} {P : β → Prop} {g : β → γ} {xs : List β}
    (h : ∀ x ∈ xs, ∀ y, f x = .ok y ↔ P x ∧ y = g x) (ys : List γ) :
    xs.mapM f = .ok ys ↔ (∀ x ∈ xs, P x) ∧ ys = xs.map g := by
  induction xs generalizing ys with
  | nil =>
      rw [List.mapM_nil]
      constructor
      · intro hys
        cases hys
        exact ⟨nofun, rfl⟩
      · rintro ⟨_, rfl⟩
        rfl
  | cons x xs ih =>
      have hhead := h x List.mem_cons_self
      have htail := ih fun z hz => h z (List.mem_cons_of_mem x hz)
      rw [List.mapM_cons, List.forall_mem_cons, List.map_cons]
      constructor
      · intro hys
        obtain ⟨y, hy, hys⟩ := bind_ok hys
        obtain ⟨zs, hzs, hys⟩ := bind_ok hys
        obtain ⟨hx, rfl⟩ := (hhead y).1 hy
        obtain ⟨hxs, rfl⟩ := (htail zs).1 hzs
        cases hys
        exact ⟨⟨hx, hxs⟩, rfl⟩
      · rintro ⟨⟨hx, hxs⟩, rfl⟩
        rw [(hhead _).2 ⟨hx, rfl⟩, (htail _).2 ⟨hxs, rfl⟩]
        rfl

theorem bind_error {r : Outcome β} {f : β → Outcome γ} {why : Fault} (h : r >>= f = .error why) :
    r = .error why ∨ ∃ x, r = .ok x ∧ f x = .error why := by
  cases r with
  | error other =>
      cases h
      exact .inl rfl
  | ok x => exact .inr ⟨x, rfl, h⟩

theorem mapM_option_error {f : β → Outcome γ} {o : Option β} {why : Fault}
    (h : o.mapM f = .error why) : ∃ x ∈ o, f x = .error why := by
  cases o with
  | none => cases h
  | some x =>
      rcases bind_error h with h | ⟨y, _, h⟩
      · exact ⟨x, rfl, h⟩
      · cases h

/-- A value that may be missing is checked if it is there. -/
theorem mapM_option_ok {δ : Type} {k : δ → β} {f : β → Outcome γ} {P : δ → Prop} {g : δ → γ}
    (h : ∀ x y, f (k x) = .ok y ↔ P x ∧ y = g x) (o : Option δ) (v : Option γ) :
    (o.map k).mapM f = .ok v ↔ (∀ x ∈ o, P x) ∧ v = o.map g := by
  cases o with
  | none =>
      constructor
      · intro hv
        cases hv
        exact ⟨nofun, rfl⟩
      · rintro ⟨_, rfl⟩
        rfl
  | some x =>
      change (f (k x) >>= fun y => pure (some y)) = .ok v ↔ _
      constructor
      · intro hv
        obtain ⟨y, hy, hv⟩ := bind_ok hv
        cases hv
        obtain ⟨hx, rfl⟩ := (h x y).1 hy
        refine ⟨?_, rfl⟩
        rintro _ ⟨⟩
        exact hx
      · rintro ⟨hx, rfl⟩
        rw [(h x (g x)).2 ⟨hx x rfl, rfl⟩]
        rfl

/-- An outcome with a property that can be checked. -/
theorem exists_of_any {r : Outcome β} {p : β → Bool} (h : r.toOption.any p = true) :
    ∃ x, r = .ok x ∧ p x = true := by
  cases r with
  | error why => cases h
  | ok x => exact ⟨x, rfl, h⟩

/-- What stops an outcome, if it is stopped. -/
def fault? : Outcome β → Option Fault
  | .ok _ => none
  | .error why => some why

theorem eq_error_of_fault? {r : Outcome β} {why : Fault} (h : r.fault? = some why) :
    r = .error why := by
  cases r with
  | error other => exact congrArg Except.error (Option.some.inj h)
  | ok x => cases h

theorem exists_of_isSome {r : Outcome β} (h : r.toOption.isSome = true) : ∃ x, r = .ok x := by
  cases r with
  | error why => cases h
  | ok x => exact ⟨x, rfl⟩

end Outcome

/-! ## Draws -/

namespace Draw

theorem outcome_lift (r : Outcome β) (t : Twister) :
    outcome (liftM r) t = r.map fun x => (x, t) := by
  cases r <;> rfl

theorem outcome_bind (d : Draw β) (f : β → Draw γ) (t : Twister) :
    outcome (d >>= f) t = outcome d t >>= fun p => outcome (f p.1) p.2 := by
  have run_bind : ExceptT.run (d >>= f) t =
      ExceptT.bindCont f (ExceptT.run d t).1 (ExceptT.run d t).2 := rfl
  unfold outcome
  rw [run_bind]
  rcases ExceptT.run d t with ⟨r, t'⟩
  cases r <;> rfl

/-- Some stream leads to the result. -/
def Yields (d : Draw β) (x : β) : Prop :=
  ∃ t t', outcome d t = .ok (x, t')

theorem Yields.of_pure {x y : β} (h : Yields (pure x) y) : x = y := by
  obtain ⟨t, t', h⟩ := h
  exact congrArg Prod.fst (Except.ok.inj h)

theorem Yields.of_bind {d : Draw β} {f : β → Draw γ} {y : γ} (h : Yields (d >>= f) y) :
    ∃ x, Yields d x ∧ Yields (f x) y := by
  obtain ⟨t, t', h⟩ := h
  rw [outcome_bind] at h
  obtain ⟨⟨x, t₁⟩, hx, hy⟩ := Outcome.bind_ok h
  exact ⟨x, ⟨t, t₁, hx⟩, ⟨t₁, t', hy⟩⟩

theorem Yields.of_map {d : Draw β} {f : β → γ} {y : γ} (h : Yields (f <$> d) y) :
    ∃ x, Yields d x ∧ f x = y := by
  rw [map_eq_pure_bind] at h
  obtain ⟨x, hx, hy⟩ := h.of_bind
  exact ⟨x, hx, hy.of_pure⟩

theorem Yields.of_lift {r : Outcome β} {x : β} (h : Yields (liftM r) x) : r = .ok x := by
  obtain ⟨t, t', h⟩ := h
  rw [outcome_lift] at h
  cases r with
  | error why => cases h
  | ok y => cases h; rfl

theorem Yields.of_stream {f : Twister → β × Twister} {x : β} (h : Yields (ofStream f) x) :
    ∃ t, x = (f t).1 := by
  obtain ⟨t, t', h⟩ := h
  exact ⟨t, (congrArg Prod.fst (Except.ok.inj h)).symm⟩

theorem Yields.of_mapM {f : β → Draw γ} {xs : List β} {ys : List γ} (h : Yields (xs.mapM f) ys) :
    List.Forall₂ (fun x y => Yields (f x) y) xs ys :=
  mapM_of_bind Yields Yields.of_pure Yields.of_bind h

/-- A draw that uses nothing of the stream: it comes to the same whatever the stream, which stays as it
is. -/
def Drawless (d : Draw β) : Prop :=
  ∃ r : Outcome β, ∀ t, d.outcome t = r.map fun x => (x, t)

namespace Drawless

theorem pure (x : β) : Drawless (pure x : Draw β) :=
  ⟨.ok x, fun _ => rfl⟩

theorem lift (r : Outcome β) : Drawless (liftM r : Draw β) :=
  ⟨r, outcome_lift r⟩

theorem bind {d : Draw β} {f : β → Draw γ} (hd : Drawless d) (hf : ∀ x, Drawless (f x)) :
    Drawless (d >>= f) := by
  obtain ⟨r, hr⟩ := hd
  choose g hg using hf
  refine ⟨r >>= g, fun t => ?_⟩
  rw [outcome_bind, hr]
  cases r with
  | error why => rfl
  | ok x => exact hg x t

theorem map {d : Draw β} (f : β → γ) (hd : Drawless d) : Drawless (f <$> d) := by
  rw [map_eq_pure_bind]
  exact hd.bind fun x => pure (f x)

theorem of_ok {d : Draw β} (hd : Drawless d) {x : β} {t t' : Twister}
    (h : d.outcome t = .ok (x, t')) : t' = t ∧ ∀ s, d.outcome s = .ok (x, s) := by
  obtain ⟨r, hr⟩ := hd
  rw [hr] at h
  cases r with
  | error why => cases h
  | ok y =>
      cases h
      exact ⟨rfl, hr⟩

end Drawless

/-- Whenever the second of two draws comes to something, the first comes to something related and
leaves the same stream. -/
def Follows (R : β → γ → Prop) (d : Draw β) (d' : Draw γ) : Prop :=
  ∀ t y t', d'.outcome t = .ok (y, t') → ∃ x, d.outcome t = .ok (x, t') ∧ R x y

namespace Follows

variable {R : β → γ → Prop}

theorem refl {S : β → β → Prop} (hS : ∀ x, S x x) (d : Draw β) : Follows S d d :=
  fun _ x _ h => ⟨x, h, hS x⟩

theorem lift {r : Outcome β} {r' : Outcome γ} (h : ∀ y, r' = .ok y → ∃ x, r = .ok x ∧ R x y) :
    Follows R (liftM r : Draw β) (liftM r' : Draw γ) := by
  intro t y t' hy
  rw [outcome_lift] at hy
  cases r' with
  | error why => cases hy
  | ok y' =>
      cases hy
      obtain ⟨x, rfl, hxy⟩ := h y rfl
      exact ⟨x, rfl, hxy⟩

/-- Nothing need be done to follow a draw that uses nothing of the stream. -/
theorem pure_left {d' : Draw γ} (hd : d'.Drawless) {x : β} (h : ∀ y, R x y) :
    Follows R (pure x) d' := by
  intro t y t' hy
  obtain ⟨rfl, _⟩ := hd.of_ok hy
  exact ⟨x, rfl, h y⟩

theorem pure {x : β} {y : γ} (h : R x y) : Follows R (pure x : Draw β) (pure y : Draw γ) := by
  rintro t _ t' hy
  cases hy
  exact ⟨x, rfl, h⟩

theorem bind {δ ε : Type} {S : δ → ε → Prop} {d : Draw β} {d' : Draw γ} {f : β → Draw δ}
    {g : γ → Draw ε} (h : Follows R d d') (hfg : ∀ x y, R x y → Follows S (f x) (g y)) :
    Follows S (d >>= f) (d' >>= g) := by
  intro t z t' hz
  rw [outcome_bind] at hz
  obtain ⟨⟨y, t₁⟩, hy, hz⟩ := Outcome.bind_ok hz
  obtain ⟨x, hx, hxy⟩ := h t y t₁ hy
  rw [outcome_bind, hx]
  exact hfg x y hxy t₁ z t' hz

theorem mapM {δ : Type} {f : δ → Draw β} {g : δ → Draw γ} {xs : List δ}
    (h : ∀ x ∈ xs, Follows R (f x) (g x)) :
    Follows (List.Forall₂ R) (xs.mapM f) (xs.mapM g) := by
  induction xs with
  | nil => exact pure .nil
  | cons x xs ih =>
      rw [List.mapM_cons, List.mapM_cons]
      have hrest := ih fun z hz => h z (List.mem_cons_of_mem x hz)
      exact (h x List.mem_cons_self).bind fun y y' hy => hrest.bind fun ys ys' hys =>
        pure (.cons hy hys)

end Follows

end Draw

/-! ## Runs -/

namespace Run

theorem bind_apply (r : Run β) (f : β → Run γ) (s : Session) :
    (r >>= f) s = r s >>= fun p => f p.1 p.2 := rfl

theorem lift_apply (r : Outcome β) (s : Session) :
    (liftM r : Run β) s = r.map fun x => (x, s) := by
  cases r <;> rfl

theorem bind_ok {r : Run β} {f : β → Run γ} {y : γ} {s s' : Session}
    (h : (r >>= f) s = .ok (y, s')) : ∃ x s₁, r s = .ok (x, s₁) ∧ f x s₁ = .ok (y, s') := by
  rw [bind_apply] at h
  obtain ⟨⟨x, s₁⟩, hx, hy⟩ := Outcome.bind_ok h
  exact ⟨x, s₁, hx, hy⟩

theorem lift_ok {r : Outcome β} {x : β} {s s' : Session}
    (h : (liftM r : Run β) s = .ok (x, s')) : r = .ok x ∧ s' = s := by
  rw [lift_apply] at h
  cases r with
  | error why => cases h
  | ok y =>
      cases h
      exact ⟨rfl, rfl⟩

theorem lift_bind_ok {r : Outcome β} {f : β → Run γ} {y : γ} {s s' : Session}
    (h : ((liftM r : Run β) >>= f) s = .ok (y, s')) : ∃ x, r = .ok x ∧ f x s = .ok (y, s') := by
  obtain ⟨x, s₁, hx, hy⟩ := bind_ok h
  obtain ⟨hr, rfl⟩ := lift_ok hx
  exact ⟨x, hr, hy⟩

theorem ofDraw_apply (d : Draw β) (s : Session) :
    ofDraw d s = (d.outcome s.stream).map fun p => (p.1, { s with stream := p.2 }) := by
  have run_eq : ofDraw d s = (liftM (d.outcome s.stream) : Run _) s >>= fun p =>
      .ok (p.1.1, { p.2 with stream := p.1.2, warnings := s.warnings }) := rfl
  rw [run_eq]
  cases d.outcome s.stream <;> rfl

theorem ofDraw_ok {d : Draw β} {x : β} {s s' : Session} (h : ofDraw d s = .ok (x, s')) :
    ∃ t, d.outcome s.stream = .ok (x, t) ∧ s' = { s with stream := t } := by
  rw [ofDraw_apply] at h
  cases hd : d.outcome s.stream with
  | error why =>
      rw [hd] at h
      cases h
  | ok p =>
      rw [hd] at h
      cases h
      exact ⟨p.2, rfl, rfl⟩

/-- Two runs go alike from every session: both stop with the same fault, or both lead to the same
session with related results. -/
def Alike (R : β → γ → Prop) (r : Run β) (r' : Run γ) : Prop :=
  ∀ s, (∃ why, r s = .error why ∧ r' s = .error why) ∨
    ∃ x y s', r s = .ok (x, s') ∧ r' s = .ok (y, s') ∧ R x y

namespace Alike

variable {R : β → γ → Prop}

theorem pure {x : β} {y : γ} (h : R x y) : Alike R (pure x : Run β) (pure y : Run γ) :=
  fun s => .inr ⟨x, y, s, rfl, rfl, h⟩

theorem refl (r : Run β) : Alike Eq r r := by
  intro s
  cases h : r s with
  | error why => exact .inl ⟨why, rfl, rfl⟩
  | ok p => exact .inr ⟨p.1, p.1, p.2, rfl, rfl, rfl⟩

theorem lift {r : Outcome β} {r' : Outcome γ} {x : β} {y : γ} (hr : r = .ok x) (hr' : r' = .ok y)
    (h : R x y) : Alike R (liftM r : Run β) (liftM r' : Run γ) := by
  subst hr hr'
  exact fun s => .inr ⟨x, y, s, rfl, rfl, h⟩

theorem bind {δ ε : Type} {S : δ → ε → Prop} {r : Run β} {r' : Run γ} {f : β → Run δ}
    {g : γ → Run ε} (h : Alike R r r') (hfg : ∀ x y, R x y → Alike S (f x) (g y)) :
    Alike S (r >>= f) (r' >>= g) := by
  intro s
  rw [bind_apply, bind_apply]
  rcases h s with ⟨why, hr, hr'⟩ | ⟨x, y, s₁, hr, hr', hxy⟩
  · rw [hr, hr']
    exact .inl ⟨why, rfl, rfl⟩
  · rw [hr, hr']
    exact hfg x y hxy s₁

theorem exists_right {r : Run β} {r' : Run γ} (h : Alike R r r') {x : β} {s s' : Session}
    (hr : r s = .ok (x, s')) : ∃ y, r' s = .ok (y, s') ∧ R x y := by
  rcases h s with ⟨why, hstop, _⟩ | ⟨x', y, s₁, hx, hy, hxy⟩
  · rw [hstop] at hr
    cases hr
  · rw [hx] at hr
    cases hr
    exact ⟨y, hy, hxy⟩

theorem exists_left {r : Run β} {r' : Run γ} (h : Alike R r r') {y : γ} {s s' : Session}
    (hr' : r' s = .ok (y, s')) : ∃ x, r s = .ok (x, s') ∧ R x y := by
  rcases h s with ⟨why, _, hstop⟩ | ⟨x, y', s₁, hx, hy, hxy⟩
  · rw [hstop] at hr'
    cases hr'
  · rw [hy] at hr'
    cases hr'
    exact ⟨x, hx, hxy⟩

end Alike

/-- A run that no session stops with a fault. -/
def Total (r : Run β) : Prop :=
  ∀ s, ∃ p, r s = .ok p

namespace Total

theorem pure (x : β) : Total (pure x : Run β) :=
  fun s => ⟨(x, s), rfl⟩

theorem warn (message : String) : Total (warn message) :=
  fun _ => ⟨_, rfl⟩

theorem lift {r : Outcome β} {x : β} (h : r = .ok x) : Total (liftM r : Run β) := by
  subst h
  exact pure x

theorem bind {r : Run β} {f : β → Run γ} (hr : Total r) (hf : ∀ x, Total (f x)) :
    Total (r >>= f) := by
  intro s
  obtain ⟨⟨x, s'⟩, hx⟩ := hr s
  rw [bind_apply, hx]
  exact hf x s'

end Total

/-- Some session leads to the result. -/
def Yields (r : Run β) (x : β) : Prop :=
  ∃ s s', r s = .ok (x, s')

theorem Yields.of_pure {x y : β} (h : Yields (pure x) y) : x = y := by
  obtain ⟨s, s', h⟩ := h
  exact congrArg Prod.fst (Except.ok.inj h)

theorem Yields.of_bind {r : Run β} {f : β → Run γ} {y : γ} (h : Yields (r >>= f) y) :
    ∃ x, Yields r x ∧ Yields (f x) y := by
  obtain ⟨s, s', h⟩ := h
  rw [bind_apply] at h
  obtain ⟨⟨x, s₁⟩, hx, hy⟩ := Outcome.bind_ok h
  exact ⟨x, ⟨s, s₁, hx⟩, ⟨s₁, s', hy⟩⟩

theorem Yields.of_lift {r : Outcome β} {x : β} (h : Yields (liftM r) x) : r = .ok x := by
  obtain ⟨s, s', h⟩ := h
  rw [lift_apply] at h
  cases r with
  | error why => cases h
  | ok y => cases h; rfl

theorem Yields.of_draw {d : Draw β} {x : β} (h : Yields (ofDraw d) x) : d.Yields x := by
  obtain ⟨s, s', h⟩ := h
  obtain ⟨t, hd, _⟩ := ofDraw_ok h
  exact ⟨s.stream, t, hd⟩

theorem Yields.of_mapM {f : β → Run γ} {xs : List β} {ys : List γ} (h : Yields (xs.mapM f) ys) :
    List.Forall₂ (fun x y => Yields (f x) y) xs ys :=
  mapM_of_bind Yields Yields.of_pure Yields.of_bind h

end Run

end Partitura
