import Mathlib.Data.List.Perm.Subperm
import Mathlib.Logic.Relation
import Partitura.Number.Exact
import Partitura.Proofs.Faults
import Partitura.Proofs.Pattern.Origin
import Partitura.Proofs.Random.Chances

/-!
# Following references

Resolving a pattern follows its references one after the other: from a condition to the pattern that
it selects, from an extension to its parent, from a transform to its source. One step of this is
`Follows`. It has a direction and a session: a condition on a probability draws a number, and what it
draws decides where the step leads.

Resolving stops with `tooDeep` exactly if thirty-three references can be followed
(`Pattern.references_followed`). What a chain does to the patterns on its way back never adds to it
or takes from it, so all that is needed of a pattern is what it does first (`Resolving`): it either
follows a reference or is through. A chain that stays in a cycle goes on for ever and so stops with the
fault; one that never comes back to a name leaves each pattern that refers to others at most once.
-/

namespace Partitura

variable {α : Type} [Scalar α]

/-! ## §1  Steps -/

/-- A pattern that is to be resolved, in the session so far. -/
abbrev Pending (α : Type) :=
  Pattern α × Session

/-- A reference is followed to a pattern of the table. -/
inductive Follows (c : Context α) : Pending α → Pending α → Prop
  /-- A condition selects a name. The session goes on, since it may draw and report. -/
  | target {p : Conditional α} {s s' : Session} {name : String} {q : Pattern α} :
      selectName c p s = .ok (.text name, s') → c.pattern? name = some q →
      Follows c (.conditional p, s) (q, s')
  | parent {i : Inheritance α} {s : Session} {q : Pattern α} :
      c.pattern? i.parent = some q → Follows c (.inheritance i, s) (q, s)
  | source {t : Transformation α} {s : Session} {q : Pattern α} :
      c.pattern? t.source = some q → Follows c (.transformation t, s) (q, s)

/-- So many references are followed, one after the other. -/
inductive FollowsTimes (c : Context α) : Nat → Pending α → Pending α → Prop
  | none (x : Pending α) : FollowsTimes c 0 x x
  | more {n : Nat} {x y z : Pending α} :
      Follows c x y → FollowsTimes c n y z → FollowsTimes c (n + 1) x z

/-- No reference can be followed from here. -/
def Final (c : Context α) (x : Pending α) : Prop :=
  ∀ y, ¬ Follows c x y

variable {c : Context α}

theorem exists_followsTimes_succ {n : Nat} {x : Pending α} :
    (∃ y, FollowsTimes c (n + 1) x y) ↔ ∃ z, Follows c x z ∧ ∃ y, FollowsTimes c n z y := by
  constructor
  · rintro ⟨y, h⟩
    cases h with
    | more hz hy => exact ⟨_, hz, y, hy⟩
  · rintro ⟨z, hz, y, hy⟩
    exact ⟨y, .more hz hy⟩

/-- A chain that does not come so far ends. -/
theorem exists_final {n : Nat} {x : Pending α} (h : ¬ ∃ y, FollowsTimes c n x y) :
    ∃ m < n, ∃ y, FollowsTimes c m x y ∧ Final c y := by
  induction n generalizing x with
  | zero => exact absurd ⟨x, .none x⟩ h
  | succ n ih =>
      by_cases hfinal : Final c x
      · exact ⟨0, n.succ_pos, x, .none x, hfinal⟩
      · obtain ⟨z, hz⟩ := not_forall_not.1 hfinal
        have hshort : ¬ ∃ y, FollowsTimes c n z y := fun hy =>
          h (exists_followsTimes_succ.2 ⟨z, hz, hy⟩)
        obtain ⟨m, hm, y, hy, hend⟩ := ih hshort
        exact ⟨m + 1, Nat.succ_lt_succ hm, y, .more hz hy, hend⟩

/-! ## §2  What a step draws -/

/-- The stream after the reference of a pattern has been chosen. Only a condition on a probability
draws, and it draws one number. -/
def Pattern.streamAfter (p : Pattern α) (t : Twister) : Twister :=
  match p with
  | .conditional q => if q.condition = "probability" then t.afterUnit else t
  | .base _ | .transformation _ | .inheritance _ => t

theorem stream_of_conditionValue {condition : String} {x : α} {s s' : Session}
    (h : conditionValue c condition s = .ok (x, s')) :
    s'.stream = if condition = "probability" then s.stream.afterUnit else s.stream := by
  unfold conditionValue at h
  split at h
  · cases h
    rfl
  · rw [Run.ofDraw_apply, Draw.outcome_unit] at h
    cases h
    rfl
  · rw [Run.lift_apply] at h
    cases hplace : (scalarOf c.sectionIndex : Outcome α) with
    | error why =>
        rw [hplace] at h
        cases h
    | ok place =>
        rw [hplace] at h
        cases h
        rfl
  · next hprobability _ =>
      cases h
      exact (if_neg hprobability).symm

theorem stream_of_conditionHolds {p : Conditional α} {holds : Bool} {s s' : Session}
    (h : conditionHolds c p s = .ok (holds, s')) :
    s'.stream = if p.condition = "probability" then s.stream.afterUnit else s.stream := by
  unfold conditionHolds at h
  rw [Run.bind_apply] at h
  obtain ⟨⟨left, s₁⟩, hleft, h⟩ := Outcome.bind_ok h
  rw [← stream_of_conditionValue hleft]
  cases hcompare : comparison? (α := α) p.operator with
  | none =>
      rw [hcompare] at h
      cases h
      rfl
  | some compare =>
      rw [hcompare] at h
      cases h
      rfl

theorem stream_of_selectName {p : Conditional α} {name : Value α} {s s' : Session}
    (h : selectName c p s = .ok (name, s')) :
    s'.stream = if p.condition = "probability" then s.stream.afterUnit else s.stream := by
  unfold selectName at h
  rw [Run.bind_apply] at h
  obtain ⟨⟨holds, s₁⟩, hholds, h⟩ := Outcome.bind_ok h
  rw [← stream_of_conditionHolds hholds]
  cases holds with
  | true =>
      cases h
      rfl
  | false =>
      cases h
      rfl

/-- A step from a condition on a probability draws one number, and any other step none. -/
theorem Follows.stream {x y : Pending α} (h : Follows c x y) :
    y.2.stream = x.1.streamAfter x.2.stream := by
  cases h with
  | target hselect _ => exact stream_of_selectName hselect
  | parent _ => rfl
  | source _ => rfl

/-! ## §3  What resolving a pattern does first -/

/-- A reference that leads nowhere leaves nothing but a warning. -/
def nothing (message : String) : Run (Option (BasePattern α)) := do
  Run.warn message
  return none

omit [Scalar α] in
theorem nothing_shallow (message : String) (s : Session) :
    (nothing message : Run (Option (BasePattern α))) s ≠ .error .tooDeep := by
  have shallow : Run.StopsWith Fault.Shallow (nothing message : Run (Option (BasePattern α))) :=
    (Run.StopsWith.warn message).bind fun _ => .pure none
  exact fun h => shallow s .tooDeep h rfl

/-- What resolving a pattern does first. It follows a reference and finishes what comes back, which
is never too deep a chain; or no reference can be followed, and however long a chain may be makes no
difference any more. -/
inductive Resolving (c : Context α) (p : Pattern α) (s : Session) : Prop
  | on (z : Pending α) (finish : Option (BasePattern α) → Run (Option (BasePattern α)))
      (step : ∀ y, Follows c (p, s) y ↔ y = z)
      (shallow : ∀ r, Run.StopsWith Fault.Shallow (finish r))
      (resolves : ∀ depth, p.resolveWithin c (depth + 1) s =
        (z.1.resolveWithin c depth >>= finish) z.2)
  | through (r : Outcome (Option (BasePattern α) × Session))
      (resolves : ∀ depth, p.resolveWithin c (depth + 1) s = r)
      (final : Final c (p, s)) (shallow : r ≠ .error .tooDeep)

theorem resolving_conditional (p : Conditional α) (s : Session) : Resolving c (.conditional p) s := by
  cases hselect : selectName c p s with
  | error why =>
      refine .through (.error why) (fun depth => ?_) (fun y h => ?_) fun h => ?_
      · rw [Pattern.resolveWithin, Run.bind_apply, hselect]
        rfl
      · cases h with
        | target hy _ =>
            rw [hselect] at hy
            cases hy
      · exact stops_selectName Fault.covers_shallow c p s why hselect (Except.error.inj h)
  | ok selected =>
      obtain ⟨v, s'⟩ := selected
      -- What is selected decides alone whether there is a step.
      have nowhere (h : ∀ q, patternOf? c v ≠ .ok (some q)) : Final c (.conditional p, s) := by
        intro y hy
        cases hy with
        | target hy hq =>
            rw [hselect] at hy
            cases hy
            exact h _ (congrArg Except.ok hq)
      have resolves (depth : Nat) : ∃ next, (Pattern.conditional p).resolveWithin c (depth + 1) s =
            ((liftM (patternOf? c v) : Run _) >>= next) s' ∧
          next none = nothing ("Conditional pattern target \"" ++ v.plain ++ "\" not found") ∧
          ∀ target, next (some target) = target.resolveWithin c depth := by
        rw [Pattern.resolveWithin, Run.bind_apply, hselect, Outcome.ok_bind]
        exact ⟨_, rfl, rfl, fun _ => rfl⟩
      cases htarget : patternOf? c v with
      | error why =>
          rw [htarget] at nowhere resolves
          refine .through (.error why) (fun depth => ?_) (nowhere fun q hq => ?_) fun h => ?_
          · obtain ⟨next, hnext, _⟩ := resolves depth
            exact hnext
          · cases hq
          · have shallow : Outcome.StopsWith Fault.Shallow (patternOf? c v) :=
              stops_patternOf? c fun _ => nofun
            exact shallow why htarget (Except.error.inj h)
      | ok target? =>
          cases target? with
          | none =>
              rw [htarget] at nowhere resolves
              refine .through _ (fun depth => ?_) (nowhere fun q hq => ?_)
                (nothing_shallow ("Conditional pattern target \"" ++ v.plain ++ "\" not found") s')
              · obtain ⟨next, hnext, hnothing, _⟩ := resolves depth
                exact hnext.trans (congrFun hnothing s')
              · cases hq
          | some q =>
              rw [htarget] at resolves
              obtain ⟨name, rfl, hq⟩ := patternOf?_eq_some htarget
              refine .on (q, s') pure (fun y => ⟨fun h => ?_, ?_⟩) (fun r => .pure r) fun depth => ?_
              · cases h with
                | target hy hq' =>
                    rw [hselect] at hy
                    cases hy
                    rw [hq] at hq'
                    cases hq'
                    rfl
              · rintro rfl
                exact .target hselect hq
              · obtain ⟨next, hnext, _, hgoes⟩ := resolves depth
                rw [bind_pure]
                exact hnext.trans (congrFun (hgoes q) s')

/-- What comes back from a reference is finished, if anything comes back. -/
def finishing (finish : BasePattern α → Run (Option (BasePattern α))) :
    Option (BasePattern α) → Run (Option (BasePattern α))
  | none => return none
  | some resolved => finish resolved

/-- A pattern that refers to one name and draws nothing first. -/
theorem resolving_reference {p : Pattern α} {s : Session} (name message : String)
    (finish : BasePattern α → Run (Option (BasePattern α)))
    (hstep : ∀ y, Follows c (p, s) y ↔ ∃ q, c.pattern? name = some q ∧ y = (q, s))
    (hshallow : ∀ b, Run.StopsWith Fault.Shallow (finish b))
    (hnone : c.pattern? name = none → ∀ depth, p.resolveWithin c (depth + 1) = nothing message)
    (hsome : ∀ q, c.pattern? name = some q → ∀ depth,
      p.resolveWithin c (depth + 1) = q.resolveWithin c depth >>= finishing finish) :
    Resolving c p s := by
  cases hname : c.pattern? name with
  | none =>
      refine .through _ (fun depth => congrFun (hnone hname depth) s) (fun y h => ?_)
        (nothing_shallow _ s)
      obtain ⟨q, hq, _⟩ := (hstep y).1 h
      cases hname.symm.trans hq
  | some q =>
      refine .on (q, s) (finishing finish) (fun y => ?_) (fun r => ?_) fun depth =>
        congrFun (hsome q hname depth) s
      · rw [hstep, hname]
        simp
      · cases r with
        | none => exact .pure _
        | some resolved => exact hshallow resolved

theorem resolving_inheritance (i : Inheritance α) (s : Session) : Resolving c (.inheritance i) s := by
  refine resolving_reference i.parent
    ("Pattern inheritance: parent pattern \"" ++ i.parent ++ "\" not found")
    (fun resolved => do return some (← i.merge resolved)) (fun y => ⟨?_, ?_⟩)
    (fun b => (i.stops_merge Fault.covers_shallow b).bind fun _ => .pure _) (fun hparent depth => ?_)
    fun q hparent depth => ?_
  · intro h
    cases h with
    | parent hq => exact ⟨_, hq, rfl⟩
  · rintro ⟨q, hq, rfl⟩
    exact .parent hq
  · rw [Pattern.resolveWithin, hparent]
    rfl
  · rw [Pattern.resolveWithin, hparent]
    rfl

theorem resolving_transformation (t : Transformation α) (s : Session) :
    Resolving c (.transformation t) s := by
  refine resolving_reference t.source
    ("Transform source pattern \"" ++ t.source ++ "\" not found") t.apply (fun y => ⟨?_, ?_⟩)
    (t.stops_apply Fault.covers_shallow fun _ => nofun) (fun hsource depth => ?_)
    fun q hsource depth => ?_
  · intro h
    cases h with
    | source hq => exact ⟨_, hq, rfl⟩
  · rintro ⟨q, hq, rfl⟩
    exact .source hq
  · rw [Pattern.resolveWithin, hsource]
    rfl
  · rw [Pattern.resolveWithin, hsource]
    rfl

theorem resolving (p : Pattern α) (s : Session) : Resolving c p s := by
  cases p with
  | base b =>
      refine .through (.ok (some b, s)) (fun depth => ?_) (fun y h => ?_) fun h => ?_
      · rw [Pattern.resolveWithin]
        rfl
      · cases h
      · cases h
  | conditional p => exact resolving_conditional p s
  | inheritance i => exact resolving_inheritance i s
  | transformation t => exact resolving_transformation t s

/-! ## §4  How far a chain is followed -/

/-- Finishing what comes back does not make a chain too deep, and does not save one that is. -/
theorem bind_tooDeep_iff {β γ : Type} {r : Run β} {finish : β → Run γ}
    (h : ∀ x, Run.StopsWith Fault.Shallow (finish x)) (s : Session) :
    (r >>= finish) s = .error .tooDeep ↔ r s = .error .tooDeep := by
  rw [Run.bind_apply]
  constructor
  · intro heq
    rcases Outcome.bind_error heq with heq | ⟨x, _, heq⟩
    · exact heq
    · exact absurd rfl (h x.1 x.2 _ heq)
  · intro heq
    rw [heq]
    rfl

/-- By induction on the depth that is left; each reference takes one step of it. -/
theorem resolveWithin_tooDeep_iff (depth : Nat) (p : Pattern α) (s : Session) :
    p.resolveWithin c depth s = .error .tooDeep ↔ ∃ y, FollowsTimes c depth (p, s) y := by
  induction depth generalizing p s with
  | zero => exact iff_of_true rfl ⟨_, .none (p, s)⟩
  | succ depth ih =>
      rw [exists_followsTimes_succ]
      cases resolving (c := c) p s with
      | on z finish step shallow resolves =>
          rw [resolves, bind_tooDeep_iff shallow, ih]
          exact ⟨fun h => ⟨z, (step z).2 rfl, h⟩, fun ⟨y, hy, h⟩ => (step y).1 hy ▸ h⟩
      | through r resolves final shallow =>
          rw [resolves]
          exact iff_of_false shallow fun ⟨y, hy, _⟩ => final y hy

/-- A pattern that is resolved in time is resolved in the same way however much longer a chain might
be. -/
theorem resolveWithin_add {depth : Nat} {p : Pattern α} {s : Session}
    (h : p.resolveWithin c depth s ≠ .error .tooDeep) (more : Nat) :
    p.resolveWithin c (depth + more) s = p.resolveWithin c depth s := by
  induction depth generalizing p s with
  | zero => exact absurd rfl h
  | succ depth ih =>
      rw [Nat.add_right_comm]
      cases resolving (c := c) p s with
      | on z finish step shallow resolves =>
          rw [resolves, Ne, bind_tooDeep_iff shallow] at h
          rw [resolves, resolves, Run.bind_apply, ih h, Run.bind_apply]
      | through r resolves final shallow => rw [resolves, resolves]

/-! ## §5  Cycles -/

/-- A set of patterns in which a chain stays: each of them leads on to another one. -/
def StaysIn (c : Context α) (ring : Pending α → Prop) : Prop :=
  ∀ x, ring x → ∃ y, ring y ∧ Follows c x y

theorem StaysIn.followsTimes {ring : Pending α → Prop} (h : StaysIn c ring) (n : Nat)
    {x : Pending α} (hx : ring x) : ∃ y, FollowsTimes c n x y := by
  induction n generalizing x with
  | zero => exact ⟨x, .none x⟩
  | succ n ih =>
      obtain ⟨z, hz, hstep⟩ := h x hx
      exact exists_followsTimes_succ.2 ⟨z, hstep, ih hz⟩

/-- The names that a pattern refers to, both of them for a condition. -/
def Pattern.RefersTo : Pattern α → String → Prop
  | .base _, _ => False
  | .conditional p, name => p.thenName = name ∨ p.elseName = .text name
  | .inheritance i, name => i.parent = name
  | .transformation t, name => t.source = name

/-- Whether a pattern refers to others. -/
def Pattern.isMeta : Pattern α → Bool
  | .base _ => false
  | .conditional _ | .inheritance _ | .transformation _ => true

namespace PatternTable

/-- The pattern of a name refers to another name. -/
def Leads (t : PatternTable α) (name next : String) : Prop :=
  ∃ p, t.lookup name = some p ∧ p.RefersTo next

/-- No name leads back to itself, whatever is selected on the way. -/
def Acyclic (t : PatternTable α) : Prop :=
  ∀ name, ¬ Relation.TransGen t.Leads name name

/-- The names of the patterns that refer to others. -/
def metaNames (t : PatternTable α) : List String :=
  (t.filter (·.2.isMeta)).map (·.1)

end PatternTable

theorem refersTo_of_selectName {p : Conditional α} {name : String} {s s' : Session}
    (h : selectName c p s = .ok (.text name, s')) : (Pattern.conditional p).RefersTo name := by
  unfold selectName at h
  rw [Run.bind_apply] at h
  obtain ⟨⟨holds, s₁⟩, _, h⟩ := Outcome.bind_ok h
  cases holds with
  | true =>
      cases h
      exact .inl rfl
  | false =>
      have hname := congrArg Prod.fst (Outcome.pure_ok h)
      dsimp only at hname
      split at hname
      · exact .inr hname
      · cases hname
        exact .inl rfl

/-- A step leads from a pattern that refers to others to the pattern of one of the names. -/
theorem Follows.refersTo {x y : Pending α} (h : Follows c x y) :
    x.1.isMeta = true ∧ ∃ name, x.1.RefersTo name ∧ c.pattern? name = some y.1 := by
  cases h with
  | target hselect hq => exact ⟨rfl, _, refersTo_of_selectName hselect, hq⟩
  | parent hq => exact ⟨rfl, _, rfl, hq⟩
  | source hq => exact ⟨rfl, _, rfl, hq⟩

/-- The names that a chain leaves behind, each of which leads to all that come after it. -/
theorem FollowsTimes.names {n : Nat} {x y : Pending α} (h : FollowsTimes c n x y) {name : String}
    (hname : c.pattern? name = some x.1) :
    ∃ names : List String, names.length = n ∧ names.Pairwise (Relation.TransGen c.patterns.Leads) ∧
      ∀ m ∈ names, Relation.ReflTransGen c.patterns.Leads name m ∧ m ∈ c.patterns.metaNames := by
  induction h generalizing name with
  | none x => exact ⟨[], rfl, .nil, nofun⟩
  | @more n x y z hstep _ ih =>
      obtain ⟨hmeta, next, hrefers, hnext⟩ := hstep.refersTo
      obtain ⟨names, hlength, hpairwise, hnames⟩ := ih hnext
      have hleads : c.patterns.Leads name next := ⟨x.1, hname, hrefers⟩
      have hmem : name ∈ c.patterns.metaNames :=
        List.mem_map.2 ⟨(name, x.1), List.mem_filter.2 ⟨mem_of_lookup hname, hmeta⟩, rfl⟩
      refine ⟨name :: names, congrArg Nat.succ hlength, List.pairwise_cons.2 ⟨?_, hpairwise⟩,
        List.forall_mem_cons.2 ⟨⟨.refl, hmem⟩, ?_⟩⟩
      · exact fun m hm => .head' hleads (hnames m hm).1
      · exact fun m hm => ⟨(hnames m hm).1.head hleads, (hnames m hm).2⟩

/-- Without cycles a chain leaves no name twice, so it is no longer than there are patterns that refer
to others. -/
theorem FollowsTimes.le_of_acyclic {n : Nat} {x y : Pending α} (h : FollowsTimes c n x y)
    {name : String} (hname : c.pattern? name = some x.1) (hacyclic : c.patterns.Acyclic) :
    n ≤ c.patterns.metaNames.length := by
  obtain ⟨names, rfl, hpairwise, hnames⟩ := h.names hname
  -- A name that came twice would lead back to itself.
  have hnodup : names.Nodup := hpairwise.imp (by
    rintro name _ hleads rfl
    exact hacyclic name hleads)
  exact (hnodup.subperm fun m hm => (hnames m hm).2).length_le

/-! ## §6  Resolving -/

/-- **References are followed to the end, but no further than thirty-two of them.** Resolving a pattern
stops with `tooDeep` if and only if thirty-three references can be followed from it, where a step from a
condition on a probability draws one number and any other step none. Otherwise the chain ends, and it
is resolved as it would be if chains might be longer. So a chain that stays in a cycle always stops with
the fault, and a pattern of a table without cycles never does if at most thirty-two patterns of the
table refer to others. -/
theorem Pattern.references_followed (c : Context α) (p : Pattern α) (s : Session) :
    (p.resolve c s = .error .tooDeep ↔ ∃ y, FollowsTimes c 33 (p, s) y) ∧
    (∀ x y, Follows c x y → y.2.stream = x.1.streamAfter x.2.stream) ∧
    (p.resolve c s ≠ .error .tooDeep →
      (∃ n ≤ 32, ∃ y, FollowsTimes c n (p, s) y ∧ Final c y) ∧
      ∀ more, p.resolveWithin c (33 + more) s = p.resolve c s) ∧
    (∀ ring, StaysIn c ring → ring (p, s) → p.resolve c s = .error .tooDeep) ∧
    (∀ name, c.pattern? name = some p → c.patterns.Acyclic → c.patterns.metaNames.length ≤ 32 →
      p.resolve c s ≠ .error .tooDeep) := by
  have hdeep : p.resolve c s = .error .tooDeep ↔ ∃ y, FollowsTimes c 33 (p, s) y :=
    resolveWithin_tooDeep_iff 33 p s
  refine ⟨hdeep, fun x y h => h.stream, fun h => ⟨?_, resolveWithin_add h⟩, fun ring hring hp => ?_,
    fun name hname hacyclic hmeta h => ?_⟩
  · obtain ⟨n, hn, hend⟩ := exists_final fun hlong => h (hdeep.2 hlong)
    exact ⟨n, Nat.le_of_lt_succ hn, hend⟩
  · exact hdeep.2 (hring.followsTimes 33 hp)
  · obtain ⟨y, hy⟩ := hdeep.1 h
    have hle := hy.le_of_acyclic hname hacyclic
    omega

/-- Where patterns extend others: a hen and an egg that extend each other, or else an heir of a tune. -/
def nest (patterns : PatternTable Rat) : Context Rat where
  key := { root := ⟨.c, .natural⟩, mode := .major }
  tempo := 120
  patterns := patterns
  velocity := 4 / 5

def henAndEgg : PatternTable Rat :=
  [("hen", .inheritance { parent := "egg" }), ("egg", .inheritance { parent := "hen", octave := 1 })]

def tuneAndHeir : PatternTable Rat :=
  [("tune", .base { content := .notes ["C4:q"] }), ("heir", .inheritance { parent := "tune" })]

theorem henAndEgg_staysIn [Elementary] :
    StaysIn (nest henAndEgg) fun x => x.1 ∈ henAndEgg.map (·.2) := by
  rintro ⟨p, s⟩ hp
  obtain rfl | rfl : p = _ ∨ p = _ := by simpa [henAndEgg] using hp
  · exact ⟨(.inheritance { parent := "hen", octave := 1 }, s), by simp [henAndEgg], .parent rfl⟩
  · exact ⟨(.inheritance { parent := "egg" }, s), by simp [henAndEgg], .parent rfl⟩

theorem tuneAndHeir_acyclic : tuneAndHeir.Acyclic := by
  have leads {name next : String} (h : tuneAndHeir.Leads name next) :
      name = "heir" ∧ next = "tune" := by
    obtain ⟨p, hp, hnext⟩ := h
    have hmem := mem_of_lookup hp
    rcases (by simpa [tuneAndHeir] using hmem : _ ∨ _) with ⟨rfl, rfl⟩ | ⟨rfl, rfl⟩
    · exact hnext.elim
    · exact ⟨rfl, hnext.symm⟩
  intro name h
  obtain ⟨next, hstep, hrest⟩ := Relation.TransGen.head'_iff.1 h
  obtain ⟨rfl, rfl⟩ := leads hstep
  rcases Relation.ReflTransGen.cases_head hrest with heq | ⟨_, hstep', _⟩
  · simp at heq
  · simpa using (leads hstep').1

/-- A hen and an egg that extend each other are followed for ever, and the heir of a tune is not. -/
theorem Pattern.hen_and_egg_followed : ∃ _ : Elementary, ∀ s,
    Pattern.resolve (nest henAndEgg) (.inheritance { parent := "egg" }) s = .error .tooDeep ∧
    Pattern.resolve (nest tuneAndHeir) (.inheritance { parent := "tune" }) s ≠ .error .tooDeep ∧
    ∃ n ≤ 32, ∃ y, FollowsTimes (nest tuneAndHeir) n (.inheritance { parent := "tune" }, s) y ∧
      Final (nest tuneAndHeir) y := by
  let _ := Elementary.coarse
  refine ⟨inferInstance, fun s => ?_⟩
  obtain ⟨_, _, _, hring, _⟩ := Pattern.references_followed (nest henAndEgg)
    (.inheritance { parent := "egg" }) s
  obtain ⟨_, _, hend, _, hacyclic⟩ := Pattern.references_followed (nest tuneAndHeir)
    (.inheritance { parent := "tune" }) s
  have hshort := hacyclic "heir" rfl tuneAndHeir_acyclic (by decide)
  exact ⟨hring _ henAndEgg_staysIn (by simp [henAndEgg]), hshort, (hend hshort).1⟩

end Partitura
