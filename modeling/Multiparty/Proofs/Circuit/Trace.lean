import Mathlib.Data.List.Basic
import Mathlib.Order.Bounds.Basic

/-!
# Traces of circuits

The trace of a circuit is the tree of the requests that it makes, in sequence and in branches side by
side. Its schedule puts every request into the first round in which it can be made. The requests of
branches side by side share their rounds, those of the first one in front.

## Main definitions

* `Batch`: the multiplications and openings of a round.
* `Trace`: a tree of requests.
* `Trace.schedule`: the rounds of a trace.
* `Trace.IsPath`: the requests along a path.
* `Trace.order`: the schedule of the places of a trace, which its shape determines.

## Main results

* `Trace.isGreatest_length_schedule`: there are as many rounds as requests along a longest path.
* `Trace.schedule_eq_order`: the schedule has its requests in the order of their places.
-/

namespace Multiparty

/-- The multiplications and openings of one round, in order. -/
structure Batch (M V : Type) where
  muls : List M
  opens : List V
  deriving DecidableEq

namespace Batch

variable {M V M' V' : Type}

/-- The requests of two branches in the same round. -/
def append (r r' : Batch M V) : Batch M V := ⟨r.muls ++ r'.muls, r.opens ++ r'.opens⟩

instance : Append (Batch M V) := ⟨append⟩

/-- The batch with other things in the places of its requests. -/
def map (f : M → M') (g : V → V') (r : Batch M V) : Batch M' V' := ⟨r.muls.map f, r.opens.map g⟩

@[simp] theorem map_append (f : M → M') (g : V → V') (r r' : Batch M V) :
    (r ++ r').map f g = r.map f g ++ r'.map f g :=
  congrArg₂ Batch.mk List.map_append List.map_append

/-- Two schedules side by side share their rounds. -/
def sideBySide : List (Batch M V) → List (Batch M V) → List (Batch M V)
  | [], rs => rs
  | rs, [] => rs
  | r :: rs, r' :: rs' => (r ++ r') :: sideBySide rs rs'

@[simp] theorem nil_sideBySide (rs : List (Batch M V)) : sideBySide [] rs = rs := by
  rw [sideBySide]

@[simp] theorem sideBySide_nil (rs : List (Batch M V)) : sideBySide rs [] = rs := by
  cases rs <;> rfl

@[simp] theorem length_sideBySide (rs rs' : List (Batch M V)) :
    (sideBySide rs rs').length = max rs.length rs'.length := by
  fun_induction sideBySide with
  | case1 rs => simp
  | case2 rs => simp
  | case3 r rs r' rs' ih => simp [ih, Nat.succ_max_succ]

theorem map_sideBySide (f : M → M') (g : V → V') (rs rs' : List (Batch M V)) :
    (sideBySide rs rs').map (map f g) = sideBySide (rs.map (map f g)) (rs'.map (map f g)) := by
  fun_induction sideBySide with
  | case1 rs => simp
  | case2 rs => simp
  | case3 r rs r' rs' ih => simp [ih, sideBySide]

end Batch

/-- The requests of a circuit: multiplications `M` and openings `V`, in sequence and in branches. -/
inductive Trace (M V : Type) where
  /-- Nothing is requested any more. -/
  | done
  | mul (m : M) (rest : Trace M V)
  | reveal (v : V) (rest : Trace M V)
  /-- Two branches side by side, and what comes after both. -/
  | join (first second rest : Trace M V)
  deriving DecidableEq

namespace Trace

variable {M V M' V' : Type}

/-- The rounds in which the requests are made. -/
def schedule : Trace M V → List (Batch M V)
  | done => []
  | mul m rest => ⟨[m], []⟩ :: rest.schedule
  | reveal v rest => ⟨[], [v]⟩ :: rest.schedule
  | join first second rest => Batch.sideBySide first.schedule second.schedule ++ rest.schedule

/-! ### Longest paths -/

/-- The requests along a path, which follows one of the branches wherever there are two. -/
inductive IsPath : Trace M V → List (M ⊕ V) → Prop where
  | done : IsPath done []
  | mul {m : M} {rest : Trace M V} {p : List (M ⊕ V)} (h : IsPath rest p) :
      IsPath (mul m rest) (.inl m :: p)
  | reveal {v : V} {rest : Trace M V} {p : List (M ⊕ V)} (h : IsPath rest p) :
      IsPath (reveal v rest) (.inr v :: p)
  | first {first second rest : Trace M V} {p q : List (M ⊕ V)} (hfirst : IsPath first p)
      (hrest : IsPath rest q) : IsPath (join first second rest) (p ++ q)
  | second {first second rest : Trace M V} {p q : List (M ⊕ V)} (hsecond : IsPath second p)
      (hrest : IsPath rest q) : IsPath (join first second rest) (p ++ q)

theorem IsPath.length_le {t : Trace M V} {p : List (M ⊕ V)} (h : t.IsPath p) :
    p.length ≤ t.schedule.length := by
  induction h with
  | done => exact Nat.le_refl _
  | mul _ ih => exact Nat.succ_le_succ ih
  | reveal _ ih => exact Nat.succ_le_succ ih
  | first _ _ ihfirst ihrest =>
    simp only [schedule, List.length_append, Batch.length_sideBySide]
    exact Nat.add_le_add (ihfirst.trans (Nat.le_max_left _ _)) ihrest
  | second _ _ ihsecond ihrest =>
    simp only [schedule, List.length_append, Batch.length_sideBySide]
    exact Nat.add_le_add (ihsecond.trans (Nat.le_max_right _ _)) ihrest

theorem exists_isPath (t : Trace M V) : ∃ p, t.IsPath p ∧ p.length = t.schedule.length := by
  induction t with
  | done => exact ⟨[], .done, rfl⟩
  | mul m rest ih =>
    obtain ⟨p, hp, hlen⟩ := ih
    exact ⟨_, hp.mul, congrArg Nat.succ hlen⟩
  | reveal v rest ih =>
    obtain ⟨p, hp, hlen⟩ := ih
    exact ⟨_, hp.reveal, congrArg Nat.succ hlen⟩
  | join first second rest ihfirst ihsecond ihrest =>
    obtain ⟨q, hq, hrest⟩ := ihrest
    -- The longer one of the two branches is followed.
    rcases Nat.le_total second.schedule.length first.schedule.length with h | h
    · obtain ⟨p, hp, hlen⟩ := ihfirst
      exact ⟨p ++ q, hp.first hq, by simp [schedule, hlen, hrest, Nat.max_eq_left h]⟩
    · obtain ⟨p, hp, hlen⟩ := ihsecond
      exact ⟨p ++ q, hp.second hq, by simp [schedule, hlen, hrest, Nat.max_eq_right h]⟩

/-- There are as many rounds as requests along a longest path. -/
theorem isGreatest_length_schedule (t : Trace M V) :
    IsGreatest {k | ∃ p, t.IsPath p ∧ p.length = k} t.schedule.length := by
  refine ⟨t.exists_isPath, ?_⟩
  rintro _ ⟨p, hp, rfl⟩
  exact hp.length_le

/-! ### The order of the requests -/

/-- The trace with other things in the places of its requests. -/
def map (f : M → M') (g : V → V') : Trace M V → Trace M' V'
  | done => done
  | mul m rest => mul (f m) (rest.map f g)
  | reveal v rest => reveal (g v) (rest.map f g)
  | join first second rest => join (first.map f g) (second.map f g) (rest.map f g)

/-- What the requests are does not matter to their order. -/
theorem schedule_map (f : M → M') (g : V → V') (t : Trace M V) :
    (t.map f g).schedule = t.schedule.map (Batch.map f g) := by
  induction t with
  | done => rfl
  | mul m rest ih => simp [map, schedule, ih, Batch.map]
  | reveal v rest ih => simp [map, schedule, ih, Batch.map]
  | join first second rest ihfirst ihsecond ihrest =>
    simp [map, schedule, ihfirst, ihsecond, ihrest, Batch.map_sideBySide]

theorem map_map {M'' V'' : Type} (f' : M' → M'') (g' : V' → V'') (f : M → M') (g : V → V')
    (t : Trace M V) : (t.map f g).map f' g' = t.map (f' ∘ f) (g' ∘ g) := by
  induction t with
  | done => rfl
  | mul m rest ih => simp [map, ih]
  | reveal v rest ih => simp [map, ih]
  | join first second rest ihfirst ihsecond ihrest => simp [map, ihfirst, ihsecond, ihrest]

/-- The requests of a trace without what they ask for. -/
def shape (t : Trace M V) : Trace Unit Unit := t.map (fun _ => ()) fun _ => ()

/-- A way on in a trace. -/
inductive Step where
  /-- Past a request. -/
  | next
  | first
  | second
  /-- Past two branches. -/
  | after
  deriving DecidableEq

/-- A place in a trace: the way to it. -/
abbrev Place : Type := List Step

/-- The trace with the places of its requests instead of them. -/
def places : Trace M V → Trace Place Place
  | done => done
  | mul _ rest => mul [] (rest.places.map (.next :: ·) (.next :: ·))
  | reveal _ rest => reveal [] (rest.places.map (.next :: ·) (.next :: ·))
  | join first second rest =>
    join (first.places.map (.first :: ·) (.first :: ·))
      (second.places.map (.second :: ·) (.second :: ·))
      (rest.places.map (.after :: ·) (.after :: ·))

/-- The order in which the requests at the places of a shape are made, round by round. -/
def order (shape : Trace Unit Unit) : List (Batch Place Place) := shape.places.schedule

/-- What is at a place. -/
def get? : Trace M V → Place → Option (M ⊕ V)
  | mul m _, [] => some (.inl m)
  | reveal v _, [] => some (.inr v)
  | mul _ rest, .next :: p => rest.get? p
  | reveal _ rest, .next :: p => rest.get? p
  | join first _ _, .first :: p => first.get? p
  | join _ second _, .second :: p => second.get? p
  | join _ _ rest, .after :: p => rest.get? p
  | _, _ => none

theorem places_shape (t : Trace M V) : t.shape.places = t.places := by
  induction t with
  | done => rfl
  | mul m rest ih =>
    rw [places, ← ih]
    rfl
  | reveal v rest ih =>
    rw [places, ← ih]
    rfl
  | join first second rest ihfirst ihsecond ihrest =>
    rw [places, ← ihfirst, ← ihsecond, ← ihrest]
    rfl

/-- Looking up the places of a trace yields its requests. -/
theorem map_get?_places (t : Trace M V) :
    t.places.map t.get? t.get? = t.map (some ∘ .inl) (some ∘ .inr) := by
  induction t with
  | done => rfl
  | mul m rest ih =>
    simp only [places, map, map_map]
    exact congrArg (mul _) ih
  | reveal v rest ih =>
    simp only [places, map, map_map]
    exact congrArg (reveal _) ih
  | join first second rest ihfirst ihsecond ihrest =>
    simp only [places, map, map_map]
    rw [← ihfirst, ← ihsecond, ← ihrest]
    rfl

/-- The shape of a trace determines the order in which its requests are made. -/
theorem schedule_eq_order (t : Trace M V) :
    t.schedule.map (Batch.map (some ∘ .inl) (some ∘ .inr)) =
      t.shape.order.map (Batch.map t.get? t.get?) := by
  rw [← schedule_map, ← map_get?_places, schedule_map, order, places_shape]

end Trace

end Multiparty
