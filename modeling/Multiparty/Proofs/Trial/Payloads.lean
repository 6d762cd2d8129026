import Mathlib
import Multiparty.Proofs.Joint.Refinement
import Multiparty.Proofs.Opening.Payloads
import Multiparty.Trial

/-!
# How long the payloads of a trial are

A trial opens two differences for each multiplication in one exchange, and the products in another
one. With authenticated shares there are checks on the way and in the end, which send a residual for
each value if they verify few values.

## Main definitions

* `Trial.checkedCounts`: how many values the checks of a trial verify.
* `Trial.longPayloads`: the lengths of all payloads of a trial that may be long.

## Main results

* `OpenerMeter.sends_program`: the payloads of a trial, from the contract of its openers.
* `Suite.Lawful.sends_program`: the payloads of a trial of each scheme.
-/

namespace Multiparty

open Multiparty.Action (Sends)

namespace OpenerMeter

variable {O S R K : Type} [Opener O S R] {talks : Prop} {short : Nat} {seat : Seat}
  (M : OpenerMeter O talks short seat) {o : O} {queued pending : Nat}

/-- A batch that has been started holds all of its shares. -/
theorem prepareAll (h : M.Holds o queued pending) (shares : List S) :
    M.Holds (Opener.prepareAll shares o) shares.length pending := by
  have hfrom (shares : List S) {o : O} {queued : Nat} (h : M.Holds o queued pending) :
      M.Holds (shares.foldl (fun o s => Opener.prepare s o) o) (queued + shares.length) pending := by
    induction shares generalizing o queued with
    | nil => exact h
    | cons s shares ih =>
      rw [List.length_cons, Nat.add_comm shares.length, ← Nat.add_assoc]
      exact ih (M.prepare s h)
  have hall := hfrom shares (M.init h)
  rwa [Nat.zero_add] at hall

theorem sends_openBatch (h : M.Holds o queued pending) (shares : List S) :
    Sends talks short (Opener.openBatch shares) seat o (M.exchanged shares.length pending)
      fun o' _ => M.Holds o' 0 (M.left shares.length pending) := by
  refine Sends.modify_bind ?_
  rw [← List.append_nil (M.exchanged _ _)]
  refine Sends.bind (M.exchange (M.prepareAll h shares)) fun o' _ h' =>
    Sends.ofAttempt fun _ hok => ?_
  exact (Attempt.of_times (fun o' => M.Holds o' 0 _) (fun _ _ h _ => M.finalize h) h' hok).1

/-- The differences of all prepared multiplications are opened, two for each of them. -/
theorem sends_exchange {m : Multiplier S R K} (h : M.Holds o queued pending) :
    Sends talks short (Multiplier.exchange : Action (O × Multiplier S R K) Unit) seat (o, m)
      (M.exchanged (2 * m.masked.length) pending)
      fun x _ => ∃ queued, M.Holds x.1 queued (M.left (2 * m.masked.length) pending) := by
  refine Sends.get_bind ?_
  dsimp only
  by_cases hempty : m.masked.isEmpty = true
  · have hnone : m.masked.length = 0 := by
      rw [← Queue.length_toList, (Queue.isEmpty_iff _).1 hempty, List.length_nil]
    rw [if_pos hempty, hnone, (M.idle pending).1, (M.idle pending).2]
    exact Sends.pure ⟨queued, h⟩
  rw [if_neg hempty]
  have hlength : m.maskedShares.length = 2 * m.masked.length := by
    rw [Multiplier.maskedShares, ← Queue.length_toList, List.length_flatMap]
    simp [Nat.mul_comm]
  refine Sends.modify_bind ?_
  dsimp only
  rw [← List.append_nil (M.exchanged _ _), ← hlength]
  refine Sends.bind (Q := fun x _ => M.Holds x.1 0 _)
    (Sends.zoom (M.exchange (M.prepareAll h m.maskedShares))) ?_
  intro x _ hx
  refine Sends.modify_bind (Sends.ofAttempt_bind fun units hok => Sends.pure ⟨0, ?_⟩)
  refine (Attempt.of_times (s := (x.1, { x.2 with masked := .empty }))
    (fun x : O × Multiplier S R K => M.Holds x.1 0 _) ?_ hx hok).1
  rintro ⟨o, m⟩ _ ho htake
  have hfirst : M.Holds (Opener.finalize o).2 0 _ := M.finalize ho
  rw [Multiplier.takePair] at htake ⊢
  generalize Opener.finalize o = first at htake hfirst ⊢
  obtain ⟨e | rho, o₁⟩ := first
  · exact hfirst
  have hsecond : M.Holds (Opener.finalize o₁).2 0 _ := M.finalize hfirst
  dsimp only at htake ⊢
  generalize Opener.finalize o₁ = second at htake hsecond ⊢
  obtain ⟨e | sigma, o₂⟩ := second
  · exact hsecond
  · exact hsecond

variable [LinearShare S R K] [CodedRing R] {p : Processor O S R K}

omit [Opener O S R] [CodedRing R] in
/-- Preparing a multiplication queues one pair of differences. -/
private theorem of_prepare {x y : S} {units : Unit}
    (h : (Processor.tryMultiplier (Multiplier.prepare x y) p).1 = .ok units) :
    (Processor.tryMultiplier (Multiplier.prepare x y) p).2.opener = p.opener ∧
      (Processor.tryMultiplier (Multiplier.prepare x y) p).2.multiplier.masked.length =
        p.multiplier.masked.length + 1 := by
  change (Multiplier.prepare x y p.multiplier).1 = _ at h
  refine ⟨rfl, ?_⟩
  change (Multiplier.prepare x y p.multiplier).2.masked.length = _
  rw [Multiplier.prepare] at h ⊢
  rcases hsupply : Multiplier.ofSupply Supply.triple p.multiplier with ⟨e | t, m⟩
  · rw [hsupply] at h
    cases h
  · have hmasked : m.masked = p.multiplier.masked :=
      (congrArg (fun result => result.2.masked) hsupply).symm
    dsimp only
    rw [Queue.length_enqueue, hmasked]

theorem sends_mul (h : M.Holds p.opener queued pending) (pairs : List (S × S)) :
    Sends talks short (Processor.mul pairs) seat p (M.exchanged (2 * pairs.length) pending)
      fun p' products => products.length = pairs.length ∧
        ∃ queued, M.Holds p'.opener queued (M.left (2 * pairs.length) pending) := by
  rw [← List.append_nil (M.exchanged _ _)]
  refine Sends.modify_bind (Sends.bind (u := []) (Q := fun p' _ => p'.opener = p.opener ∧
    p'.multiplier.masked.length = pairs.length) (Sends.ofAttempt fun units hok => ?_) ?_)
  · refine (Attempt.of_forEach (s := { p with multiplier := p.multiplier.init })
      (f := fun pair : S × S => (Processor.tryMultiplier (Multiplier.prepare pair.1 pair.2) :
        Attempt (Processor O S R K) Unit))
      (fun k p' => p'.opener = p.opener ∧ p'.multiplier.masked.length = k) ?_ ⟨rfl, rfl⟩ hok).1
    rintro k p' pair _ ⟨hopener, hcount⟩ hprepare
    obtain ⟨hsame, hmore⟩ := of_prepare hprepare
    exact ⟨hsame.trans hopener, by rw [hmore, hcount]⟩
  rintro p₁ _ ⟨hopener, hmasked⟩
  rw [← hopener] at h
  rw [← hmasked]
  refine Sends.bind (Q := fun p' _ => ∃ queued, M.Holds p'.opener queued _)
    (Sends.zoom (M.sends_exchange (m := p₁.multiplier) h)) ?_
  rintro p₂ _ ⟨queued, h₂⟩
  refine Sends.ofAttempt fun products hproducts => ?_
  obtain ⟨hfinal, hlength⟩ := Attempt.of_times
    (fun p' : Processor O S R K => M.Holds p'.opener queued _) (fun _ _ h _ => h) h₂ hproducts
  exact ⟨hlength, queued, hfinal⟩

/-- A trial opens two differences for each multiplication, then the products, and checks. -/
theorem sends_program (h : M.Holds p.opener 0 0) (pairs : List (S × S)) :
    let first := M.left (2 * pairs.length) 0
    Sends talks short (Trial.program pairs) seat p (M.exchanged (2 * pairs.length) 0 ++
      (M.exchanged pairs.length first ++ M.checked (M.left pairs.length first)))
      fun _ _ => True := by
  intro first
  refine Sends.bind (M.sends_mul h pairs) ?_
  rintro p₁ products ⟨hlength, queued, h₁⟩
  rw [← hlength]
  refine Sends.bind (Q := fun p' _ => M.Holds p'.opener 0 (M.left products.length first))
    (Sends.zoom (M.sends_openBatch h₁ products)) ?_
  intro p₂ opened h₂
  rw [← List.append_nil (M.checked _)]
  exact Sends.bind (Q := fun _ _ => True)
    (Sends.zoom ((M.check h₂).mono fun _ _ _ => trivial)) fun _ _ _ => Sends.pure trivial

end OpenerMeter

namespace Trial

/-- How many values the checks of a trial with authenticated shares verify. -/
def checkedCounts (checkThreshold batchSize : Nat) : List Nat :=
  if checkThreshold ≤ 2 * batchSize then [2 * batchSize, batchSize] else [3 * batchSize]

/-- The lengths of the payloads of a trial that may be long. There are two differences for each
multiplication, the products, and the residuals of those checks that verify few values. -/
def longPayloads (scheme : SharingScheme) (width batchSize : Nat) (config : ProtocolConfig) :
    List Nat :=
  [2 * batchSize * width, batchSize * width] ++
    match scheme with
    | .additiveMac => (checkedCounts config.checkThreshold batchSize).flatMap
        (MacOpener.residualLengths width config.smallCheckThreshold)
    | _ => []

/-- What the contract of authenticated openers says of a trial. -/
private theorem mem_longPayloads_iff {width batchSize short : Nat} (hshort : seedSize ≤ short)
    (config : ProtocolConfig) {l : Nat} (hl : short < l) :
    let first := MacOpener.pendingAfter config.checkThreshold (2 * batchSize) 0
    let exchanged := MacOpener.exchangedLengths width config.checkThreshold config.smallCheckThreshold
    l ∈ exchanged (2 * batchSize) 0 ++ (exchanged batchSize first ++
        MacOpener.residualLengths width config.smallCheckThreshold
          (MacOpener.pendingAfter config.checkThreshold batchSize first)) ↔
      l ∈ longPayloads .additiveMac width batchSize config := by
  intro first exchanged
  have hnone : l ∉ MacOpener.residualLengths width config.smallCheckThreshold 0 := by
    rw [MacOpener.residualLengths]
    split
    · rw [List.mem_singleton]
      omega
    · exact List.not_mem_nil
  have hnonzero : l ≠ 0 := by omega
  by_cases hbatch : batchSize = 0
  · subst hbatch
    simp [first, exchanged, longPayloads, checkedCounts, MacOpener.exchangedLengths,
      MacOpener.pendingAfter, hnone, hnonzero]
    split <;> simp [hnone]
  have hdouble : 2 * batchSize ≠ 0 := by omega
  -- A check in the first exchange verifies the differences only. After it the products are verified
  -- by the second exchange or in the end, as all openings are where there is none.
  by_cases hfirst : config.checkThreshold ≤ 2 * batchSize
  · by_cases hsecond : config.checkThreshold ≤ batchSize <;>
      simp [first, exchanged, longPayloads, checkedCounts, MacOpener.exchangedLengths,
        MacOpener.pendingAfter, hbatch, hfirst, hsecond, hnone, or_left_comm]
  · have hsum : 2 * batchSize + batchSize = 3 * batchSize := by omega
    by_cases hsecond : config.checkThreshold ≤ 3 * batchSize <;>
      simp [first, exchanged, longPayloads, checkedCounts, MacOpener.exchangedLengths,
        MacOpener.pendingAfter, hbatch, hfirst, hsecond, hnone, hsum]

/-- Without checks that send residuals only openings may be long. -/
private theorem mem_openedLengths_iff {width batchSize short : Nat} {l : Nat} (hl : short < l) :
    l ∈ openedLengths width (2 * batchSize) ++ (openedLengths width batchSize ++ []) ↔
      l ∈ [2 * batchSize * width, batchSize * width] := by
  have hnonzero : l ≠ 0 := by omega
  by_cases hbatch : batchSize = 0 <;> simp [openedLengths, hbatch, hnonzero]

end Trial

namespace Suite.Lawful

variable {parties : Nat} {config : ProtocolConfig} {X : Suite}
  {starts : X.Bundle → X.PartySetup → Prop} {talks : Prop} {short : Nat} {seat : Seat}

/-- What a party sends in a trial. The first of several parties sends in all schemes. -/
theorem sends_program (hX : X.Lawful parties config starts) {b : X.Bundle} {setup : X.PartySetup}
    (hsetup : starts b setup)
    (hshort : seedSize + seedSize ≤ short ∧ seedSize + CodedRing.width X.R ≤ short)
    (htalks : talks → 1 < seat.players ∧ seat.me = 0 ∧ b.party = 0) (pairs : List (X.S × X.S)) :
    Sends talks short (Trial.program pairs) seat (Processor.create setup.opener setup.supply)
      (Trial.longPayloads X.scheme (CodedRing.width X.R) pairs.length config) fun _ _ => True := by
  have hseed : seedSize ≤ short := Nat.le_of_add_right_le hshort.1
  have hplayers (h : talks) : 1 < seat.players := (htalks h).1
  cases hX with
  | authenticated F =>
    obtain ⟨rng, rfl⟩ := hsetup
    have := LawfulField.toLawfulRing (F := F)
    let M : OpenerMeter (MacOpener F) talks short seat :=
      MacOpener.meter config.checkThreshold config.smallCheckThreshold hshort hplayers
    exact (M.sends_program ⟨rfl, rfl, rfl, rfl⟩ pairs).congr fun _ =>
      Trial.mem_longPayloads_iff hseed config
  | replicated R =>
    obtain rfl := hsetup
    let M : OpenerMeter (ReplicatedOpener R) talks short seat := ReplicatedOpener.meter hseed
    have hfresh : M.Holds (.create b.party config.replicatedCheck) 0 0 := rfl
    exact (M.sends_program hfresh pairs).congr fun _ => Trial.mem_openedLengths_iff
  | threshold F =>
    obtain ⟨opener, hopener, rfl⟩ := hsetup
    obtain ⟨rows, hrows, hsenders, rfl⟩ := ThresholdOpener.exists_of_create hopener
    let M : OpenerMeter (ThresholdOpener F) talks short seat := ThresholdOpener.meter hplayers
    have hsender (h : talks) : b.party < config.thresholdFor parties + rows.length ∧
        b.party = seat.me := by
      obtain ⟨-, hme, hparty⟩ := htalks h
      have hpos := List.length_pos_of_ne_nil (ThresholdOpener.soundRows_of_mapM hrows hsenders).ne_nil
      omega
    exact (M.sends_program ⟨rfl, hsender⟩ pairs).congr fun _ => Trial.mem_openedLengths_iff

end Suite.Lawful

end Multiparty
