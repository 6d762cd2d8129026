import Mathlib
import Multiparty.Proofs.Network.Lockstep
import Multiparty.Proofs.Transcript

/-!
# Lockstep on channels that deliver in order

Parties that run in lockstep need not wait for each other. If their calls are answered, and every
party hears of every other one what that one has sent, in order, then all of them come to the
outcome of the lockstep, however far one of them is ahead. What a party hears by a call is fixed by
the round to which the call belongs, and nothing of a round is left over for the next one.

## Main results

* `Turn.reply_eq_of_gets`: a reply is what is heard of the others.
* `Lockstep.of_inOrder`: the outcome of all parties.
* `Lockstep.exists_answers`: nobody waits in vain for what the others send.
-/

namespace Multiparty

namespace Turn

variable {n me : Nat} {c : Call} {r r' : c.Reply}

/-- Of whom something is heard depends on the call only. -/
theorem gets_eq_none_iff (h : Sound n me ⟨c, r⟩) (h' : Sound n me ⟨c, r'⟩) (peer : Nat) :
    gets n me ⟨c, r⟩ peer = none ↔ gets n me ⟨c, r'⟩ peer = none := by
  match c, r, r', h, h' with
  | .send .., _, _, _, _ => exact Iff.rfl
  | .receive source, _, _, _, _ => simp [gets]
  | .broadcast _, r, r', ⟨hlen, _⟩, ⟨hlen', _⟩ =>
    simp only [gets, ite_eq_left_iff, List.getElem?_eq_none_iff, hlen, hlen']
  | .pass .., _, _, _, _ => simp [gets]

/-- Who hears the same of all others has the same reply. -/
theorem reply_eq_of_gets (hme : me < n) (h : Sound n me ⟨c, r⟩) (h' : Sound n me ⟨c, r'⟩)
    (hgets : ∀ peer < n, peer ≠ me → gets n me ⟨c, r⟩ peer = gets n me ⟨c, r'⟩ peer) : r = r' := by
  match c, r, r', h, h' with
  | .send .., _, _, _, _ => rfl
  | .receive source, r, r', ⟨hsource, hne⟩, _ =>
    have hreply := hgets source hsource hne
    simpa [gets] using hreply
  | .broadcast _, r, r', ⟨hlen, hown⟩, ⟨hlen', hown'⟩ =>
    refine List.ext_getElem? fun peer => ?_
    by_cases hpeer : peer < n
    · by_cases hself : peer = me
      · rw [hself, hown, hown']
      · have hreply := hgets peer hpeer hself
        simpa [gets, hself] using hreply
    · rw [List.getElem?_eq_none (hlen.trans_le (Nat.le_of_not_lt hpeer)),
        List.getElem?_eq_none (hlen'.trans_le (Nat.le_of_not_lt hpeer))]
  | .pass offset _, r, r', ⟨_, hne, _⟩, _ =>
    have hreply := hgets _ (Nat.mod_lt (me + n - offset % n) (Nat.zero_lt_of_lt hme)) hne
    simpa [gets] using hreply

end Turn

namespace Round

variable {n : Nat} {r : Round n}

/-- The calls of a party in a round, with their answers. -/
def events (r : Round n) (i : Fin n) : List Event :=
  (r i).toList.map fun t => ⟨t.call, .ok t.reply⟩

theorem heardFrom_events (i j : Fin n) :
    heardFrom n i j (r.events i) = ((r i).bind fun t => t.gets n i j).toList := by
  rw [events]
  cases r i with
  | none => rfl
  | some t => simp [Event.heardFrom]

theorem sentTo_events (i j : Fin n) :
    sentTo n i j (r.events i) = (r.message i j).toList := by
  rw [events, message]
  cases r i with
  | none => rfl
  | some t => simp [Event.sentTo, Turn.sends]

/-- In a round everything that is sent is heard. -/
theorem Matched.heardFrom_events (hr : r.Matched) (i j : Fin n) :
    heardFrom n i j (r.events i) = sentTo n j i (r.events j) := by
  rw [Round.heardFrom_events, sentTo_events, hr.agree]

end Round

/-- All calls are answered by replies that the network may give. -/
def Answered (players me : Nat) (t : List Event) : Prop :=
  ∀ e ∈ t, e.succeeded = true ∧ e.Sound players me

instance {players me : Nat} {t : List Event} : Decidable (Answered players me t) :=
  inferInstanceAs (Decidable (∀ e ∈ t, _ ∧ _))

namespace Session

variable {σ α : Type} {n : Nat}

/-- Where a computation stands before a round in which it takes its first turn, if any. -/
private theorem exists_of_follows {c : Session σ α} {t : Option Turn} {turns : List Turn} {s : σ}
    {a : α} (h : c.Follows (t.toList ++ turns) s a) :
    ∃ c', c.Takes t c' ∧ c'.Follows turns s a := by
  cases t with
  | none => exact ⟨c, rfl, h⟩
  | some t =>
    obtain ⟨s', resume, rfl, hresume⟩ := h.of_cons
    exact ⟨_, ⟨s', resume, rfl, rfl⟩, hresume⟩

/-- There are answers under which a computation takes its turns. -/
theorem exists_answers {c : Session σ α} {turns : List Turn} {s : σ} {a : α}
    (h : c.Follows turns s a) : ∃ answers,
      c.transcript answers = turns.map (fun t => ⟨t.call, .ok t.reply⟩) ∧
        c.under answers = (s, a) := by
  induction h with
  | done s a => exact Runs.done s a
  | wait s _ ih => exact Runs.wait ih

/-- What a computation sends by its first turn comes before everything else. -/
private theorem exists_sentTo {c c' : Session σ α} {t : Turn} (h : c.Takes (some t) c')
    {i j : Fin n} {b : Bytes} (hsends : t.sends n i j = some b) (answers : Answers)
    (rest : List Event) : ∃ later, sentTo n i j (c.transcript answers ++ rest) = b :: later := by
  obtain ⟨s, resume, rfl, -⟩ := h
  exact ⟨_, by rw [transcript_wait, List.cons_append, sentTo_cons, Event.sentTo,
    show t.call.sends n i j = some b from hsends]; rfl⟩

end Session

namespace Lockstep

variable {σ α : Type} {n : Nat} {cs cs' : Fin n → Session σ α} {r : Round n}
  {answers : Fin n → Answers} {rest : Fin n → List Event}

/-- In the first round of a lockstep every call is answered as in the round. -/
private theorem answer_eq (hr : r.Matched) (htakes : ∀ i, (cs i).Takes (r i) (cs' i))
    (hanswered : ∀ i : Fin n, Answered n i ((cs i).transcript (answers i)))
    (hinOrder : ∀ i j : Fin n, i ≠ j → heardFrom n i j ((cs i).transcript (answers i) ++ rest i) <+:
      sentTo n j i ((cs j).transcript (answers j) ++ rest j)) {i : Fin n} {t : Turn}
    (ht : r i = some t) : answers i 0 t.call = .ok t.reply := by
  have htake := htakes i
  rw [ht] at htake
  obtain ⟨s, resume, hwait, -⟩ := htake
  have hfirst := hanswered i
  rw [hwait, Session.transcript_wait] at hfirst
  obtain ⟨hsucceeded, hsound⟩ := hfirst _ List.mem_cons_self
  obtain ⟨reply, hreply⟩ : ∃ reply, answers i 0 t.call = .ok reply := by
    rw [Event.succeeded] at hsucceeded
    cases hanswer : answers i 0 t.call with
    | ok reply => exact ⟨reply, rfl⟩
    | error e => simp [hanswer, Except.isOk, Except.toBool] at hsucceeded
  have hsound' : Turn.Sound n i ⟨t.call, reply⟩ := by
    rw [hreply] at hsound
    exact hsound
  have ht' : t.Sound n i := hr.sound i t ht
  rw [hreply]
  refine congrArg Except.ok (Turn.reply_eq_of_gets i.isLt hsound' ht' fun peer hpeer hne => ?_)
  let j : Fin n := ⟨peer, hpeer⟩
  change Turn.gets n i ⟨t.call, reply⟩ j = t.gets n i j
  cases hgets : t.gets n i j with
  | none => exact (Turn.gets_eq_none_iff hsound' ht' _).2 hgets
  | some b =>
    cases hgets' : Turn.gets n i ⟨t.call, reply⟩ j with
    | none => exact absurd ((Turn.gets_eq_none_iff hsound' ht' _).1 hgets') (by simp [hgets])
    | some b' =>
      -- What is heard first is what the other one sends first.
      have hmessage : r.message j i = some b := by
        rw [← hr.agree, ht]
        exact hgets
      obtain ⟨tj, htj, hsends⟩ := Option.bind_eq_some_iff.1 hmessage
      have htakej := htakes j
      rw [htj] at htakej
      obtain ⟨later, hlater⟩ := Session.exists_sentTo htakej hsends (answers j) (rest j)
      have hprefix := hinOrder i j fun h => hne (congrArg Fin.val h).symm
      rw [hlater, hwait, Session.transcript_wait, List.cons_append, heardFrom_cons, hreply,
        Event.heardFrom] at hprefix
      change (Turn.gets n i ⟨t.call, reply⟩ j).toList ++ _ <+: _ at hprefix
      rw [hgets'] at hprefix
      rw [(List.cons_prefix_cons.1 hprefix).1]

/-- After the first round of a lockstep its calls are done, and the lockstep goes on. -/
private theorem exists_rest (hr : r.Matched) (htakes : ∀ i, (cs i).Takes (r i) (cs' i))
    (hanswered : ∀ i : Fin n, Answered n i ((cs i).transcript (answers i)))
    (hinOrder : ∀ i j : Fin n, i ≠ j → heardFrom n i j ((cs i).transcript (answers i) ++ rest i) <+:
      sentTo n j i ((cs j).transcript (answers j) ++ rest j)) :
    ∃ answers' : Fin n → Answers, ∀ i,
      (cs i).transcript (answers i) = r.events i ++ (cs' i).transcript (answers' i) ∧
      (cs i).under (answers i) = (cs' i).under (answers' i) := by
  refine ⟨fun i => (answers i).drop (r i).toList.length, fun i => ?_⟩
  dsimp only
  have htake := htakes i
  cases ht : r i with
  | none =>
    rw [ht] at htake
    have hsame : cs' i = cs i := htake
    rw [hsame, Round.events, ht]
    exact ⟨rfl, rfl⟩
  | some t =>
    have hanswer := answer_eq hr htakes hanswered hinOrder ht
    rw [ht] at htake
    obtain ⟨s, resume, hwait, hnext⟩ := htake
    rw [hwait, hnext, Session.transcript_wait, Session.under_wait, hanswer, Round.events, ht]
    exact ⟨rfl, rfl⟩

/-- If all calls are answered, and everyone hears of everyone else what that one has sent, in order,
then computations in lockstep come to the outcome of the lockstep, and everything that was sent is
heard. Whatever the parties do afterwards may be under way already. -/
theorem of_inOrder {Q : (Fin n → σ) → (Fin n → α) → Prop} (h : Lockstep cs Q)
    (hanswered : ∀ i : Fin n, Answered n i ((cs i).transcript (answers i)))
    (hinOrder : ∀ i j : Fin n, i ≠ j → heardFrom n i j ((cs i).transcript (answers i) ++ rest i) <+:
      sentTo n j i ((cs j).transcript (answers j) ++ rest j)) :
    Q (fun i => ((cs i).under (answers i)).1) (fun i => ((cs i).under (answers i)).2) ∧
      ∀ i j : Fin n, i ≠ j → heardFrom n i j ((cs i).transcript (answers i)) =
        sentTo n j i ((cs j).transcript (answers j)) := by
  obtain ⟨rounds, hmatched, s, a, hfollows, hq⟩ := h
  induction rounds generalizing cs answers with
  | nil =>
    have hdone (i : Fin n) : cs i = .done (s i) (a i) := (hfollows i).of_nil
    simp only [hdone, Session.under_done, Session.transcript_done]
    exact ⟨hq, fun _ _ _ => rfl⟩
  | cons r rounds ih =>
    have hr : r.Matched := hmatched r List.mem_cons_self
    choose cs' htakes hrest using fun i => Session.exists_of_follows (Round.turnsOf_cons r rounds i ▸
      hfollows i)
    obtain ⟨answers', hnext⟩ := exists_rest hr htakes hanswered hinOrder
    have htranscript (i : Fin n) := (hnext i).1
    have hunder (i : Fin n) := (hnext i).2
    simp only [htranscript, hunder] at hanswered hinOrder ⊢
    have hinOrder' : ∀ i j : Fin n, i ≠ j →
        heardFrom n i j ((cs' i).transcript (answers' i) ++ rest i) <+:
          sentTo n j i ((cs' j).transcript (answers' j) ++ rest j) := by
      intro i j hij
      have hprefix := hinOrder i j hij
      rwa [List.append_assoc, List.append_assoc, heardFrom_append, sentTo_append,
        hr.heardFrom_events, List.prefix_append_right_inj] at hprefix
    obtain ⟨hq, hheard⟩ := ih (fun i e he => hanswered i e (List.mem_append_right _ he)) hinOrder'
      (fun r' hr' => hmatched r' (List.mem_cons_of_mem _ hr')) hrest
    refine ⟨hq, fun i j hij => ?_⟩
    rw [heardFrom_append, sentTo_append, hr.heardFrom_events, hheard i j hij]

/-- The same for the ways in which the actions of all parties may run. -/
theorem of_runs {α : Type} {ms : Fin n → Action σ α} {s s' : Fin n → σ}
    {Q : (Fin n → σ) → (Fin n → Except ProtocolError α) → Prop} {calls : Fin n → List Event}
    {r : Fin n → Except ProtocolError α} (h : Lockstep (fun i => (ms i).run ⟨i, n⟩ (s i)) Q)
    (hruns : ∀ i, (ms i).Runs ⟨i, n⟩ (s i) (calls i) (s' i) (r i))
    (hanswered : ∀ i : Fin n, Answered n i (calls i))
    (hinOrder : ∀ i j : Fin n, i ≠ j →
      heardFrom n i j (calls i ++ rest i) <+: sentTo n j i (calls j ++ rest j)) :
    Q s' r ∧ ∀ i j : Fin n, i ≠ j → heardFrom n i j (rest i) <+: sentTo n j i (rest j) := by
  choose answers hcalls hunder using hruns
  simp only [← hcalls] at hanswered hinOrder
  obtain ⟨hq, hheard⟩ := h.of_inOrder hanswered hinOrder
  simp only [hunder] at hq
  refine ⟨hq, fun i j hij => ?_⟩
  have hprefix := hinOrder i j hij
  rwa [heardFrom_append, sentTo_append, hheard i j hij, List.prefix_append_right_inj] at hprefix

/-- Computations in lockstep can be answered so that everyone hears of everyone else all that this
one sends, and nothing else. So nobody waits for what never comes. -/
theorem exists_answers {Q : (Fin n → σ) → (Fin n → α) → Prop} (h : Lockstep cs Q) :
    ∃ answers : Fin n → Answers,
      Q (fun i => ((cs i).under (answers i)).1) (fun i => ((cs i).under (answers i)).2) ∧
      (∀ i : Fin n, Answered n i ((cs i).transcript (answers i))) ∧
      ∀ i j : Fin n, i ≠ j → heardFrom n i j ((cs i).transcript (answers i)) =
        sentTo n j i ((cs j).transcript (answers j)) := by
  obtain ⟨rounds, hmatched, s, a, hfollows, hq⟩ := h
  choose answers htranscript hunder using fun i => Session.exists_answers (hfollows i)
  refine ⟨answers, ?_⟩
  simp only [htranscript, hunder]
  refine ⟨hq, fun i e he => ?_, fun i j _ => ?_⟩
  · obtain ⟨t, ht, rfl⟩ := List.mem_map.1 he
    obtain ⟨r, hr, hrt⟩ := List.mem_filterMap.1 ht
    exact ⟨rfl, (hmatched r hr).sound i t hrt⟩
  · clear hfollows htranscript
    -- Round by round, everything that is sent is heard.
    induction rounds with
    | nil => rfl
    | cons r rounds ih =>
      rw [Round.turnsOf_cons, Round.turnsOf_cons, List.map_append, List.map_append,
        heardFrom_append, sentTo_append, ih fun r' hr' => hmatched r' (List.mem_cons_of_mem _ hr')]
      exact congrArg (· ++ _) ((hmatched r List.mem_cons_self).heardFrom_events i j)

end Lockstep

end Multiparty
