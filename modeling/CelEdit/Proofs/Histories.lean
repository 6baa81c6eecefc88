import CelEdit.Proofs.Reserves

/-!
# Histories of a supply

A supply is asked for exchanges, for new ids, to remember an exchange and to look one up, in any
order. Each request leaves an event behind, and the events alone tell what the supply knows: the ids
minted follow the seed one by one, and a set id stands for what was last minted for it or pinned to
it. Where nothing is pinned, no two set ids ever get the same id, and none gets one that was handed
out for nothing.
-/

namespace CelEdit.IdSupply

open Runs

/-- What is asked of a supply. -/
inductive Request where
  | exchange (id : NodeId)
  | mint
  | remember (old new : NodeId)
  | lookUp (id : NodeId)
deriving DecidableEq

/-- A request that was served, its answer, and whether an id was minted for it. -/
structure Event where
  request : Request
  answer : Option NodeId
  minted : Bool
deriving DecidableEq

def Request.answer : Request → Mint (Option NodeId)
  | .exchange id => do
    let new ← IdSupply.exchange id
    pure (some new)
  | .mint => do
    let new ← IdSupply.mint
    pure (some new)
  | .remember old new => do
    IdSupply.remember old new
    pure none
  | .lookUp id => do
    let s ← get
    pure (s.exchanged? id)

/-- Serves a request and notes it down. An id has been minted if the counter has moved. -/
def serve (r : Request) : Mint Event := do
  let before ← get
  let answer ← r.answer
  let after ← get
  pure ⟨r, answer, after.maxId ≠ before.maxId⟩

/-- The request makes the supply remember something for the id. -/
def Request.Names (id : NodeId) : Request → Prop
  | .exchange old => old = id
  | .remember old _ => old = id
  | _ => False

/-- The request asks for an id that cannot be known from the requests before. -/
def Request.AsksForNew (before : List Request) : Request → Prop
  | .exchange id => id = .unset ∨ ∀ r ∈ before, ¬ r.Names id
  | .mint => True
  | _ => False

/-- What the event gives to an id: an id that is minted for it or pinned to it. -/
def Event.gives (id : NodeId) (e : Event) : Option NodeId :=
  match e.request with
  | .exchange old => if old = id ∧ e.minted then e.answer else none
  | .remember old new => if old = id then some new else none
  | _ => none

/-- The id last minted for another one or pinned to it. -/
def lastGiven (id : NodeId) (events : List Event) : Option NodeId :=
  (events.filterMap (Event.gives id)).getLast?

/-- The ids minted, in order. -/
def mintedIds (events : List Event) : List NodeId :=
  (events.filter Event.minted).filterMap Event.answer

/-- The request was once answered with the id. -/
def Answered (events : List Event) (r : Request) (id : NodeId) : Prop :=
  ∃ e ∈ events, e.request = r ∧ e.answer = some id

/-- The id for which another one is asked; a minting asks for one as if for an unset id. -/
def Request.recipient? : Request → Option NodeId
  | .exchange id => some id
  | .mint => some .unset
  | _ => none

/-- The id for which another one was handed out, and that one. -/
def Event.handsOut? (e : Event) : Option (NodeId × NodeId) :=
  e.request.recipient?.bind (fun i => e.answer.map (fun v => (i, v)))

/-! ### One request -/

/-- What a supply can do with a request. -/
inductive Serves (s : IdSupply) : Event → IdSupply → Prop
  | known {id v : NodeId} (hset : id.isSet) (hv : s.exchanged? id = some v) :
      Serves s ⟨.exchange id, some v, false⟩ s
  | first {id j : NodeId} (hset : id.isSet) (hnew : s.exchanged? id = none)
      (hj : s.maxId.next? = some j) :
      Serves s ⟨.exchange id, some j, true⟩ ⟨⟨j⟩, s.exchanged.insert id j⟩
  | unset {j : NodeId} (hj : s.maxId.next? = some j) :
      Serves s ⟨.exchange .unset, some j, true⟩ ⟨⟨j⟩, s.exchanged⟩
  | mint {j : NodeId} (hj : s.maxId.next? = some j) :
      Serves s ⟨.mint, some j, true⟩ ⟨⟨j⟩, s.exchanged⟩
  | remember (old new : NodeId) :
      Serves s ⟨.remember old new, none, false⟩ ⟨s.counter, s.exchanged.insert old new⟩
  | lookUp (id : NodeId) : Serves s ⟨.lookUp id, s.exchanged? id, false⟩ s

variable {seed id j : NodeId} {r : Request} {e : Event} {events : List Event} {s t : IdSupply}

lemma ends_serve_answer : Ends (serve r) s e t ↔
    ∃ answer, Ends r.answer s answer t ∧ e = ⟨r, answer, t.maxId ≠ s.maxId⟩ := by
  simp only [serve, ends_bind, ends_get, ends_pure]
  constructor
  · rintro ⟨_, _, ⟨rfl, rfl⟩, answer, _, hanswer, _, _, ⟨rfl, rfl⟩, rfl, rfl⟩
    exact ⟨answer, hanswer, rfl⟩
  · rintro ⟨answer, hanswer, rfl⟩
    exact ⟨s, s, ⟨rfl, rfl⟩, answer, t, hanswer, t, t, ⟨rfl, rfl⟩, rfl, rfl⟩

/-- A minting moves the counter. -/
lemma moved_of_next? {i : NodeId} (h : i.next? = some j) : decide (j ≠ i) = true := by
  rw [decide_eq_true_iff]
  rintro rfl
  have hj := NodeId.toNat_next h
  omega

lemma ends_some {x : Mint NodeId} {answer : Option NodeId} :
    Ends (do
      let new ← x
      pure (some new)) s answer t ↔ ∃ v, Ends x s v t ∧ answer = some v := by
  simp only [ends_bind, ends_pure]
  constructor
  · rintro ⟨v, _, hv, rfl, rfl⟩
    exact ⟨v, hv, rfl⟩
  · rintro ⟨v, hv, rfl⟩
    exact ⟨v, t, hv, rfl, rfl⟩

lemma serves_of_ends {answer : Option NodeId} (h : Ends r.answer s answer t) :
    Serves s ⟨r, answer, t.maxId ≠ s.maxId⟩ t := by
  have hstill : decide (s.maxId ≠ s.maxId) = false := decide_eq_false (not_not.2 rfl)
  cases r with
  | exchange id =>
    obtain ⟨v, hv, rfl⟩ := ends_some.1 h
    by_cases hset : id.isSet
    · rcases (ends_exchange_set hset).1 hv with ⟨hknown, rfl⟩ | ⟨hnew, hj, rfl⟩
      · exact hstill ▸ .known hset hknown
      · exact moved_of_next? hj ▸ .first hset hnew hj
    · -- the exchange of an unset id is a minting
      rw [NodeId.isSet_iff, not_not] at hset
      subst hset
      obtain ⟨hj, rfl⟩ := ends_mint.1 hv
      exact moved_of_next? hj ▸ .unset hj
  | mint =>
    obtain ⟨v, hv, rfl⟩ := ends_some.1 h
    obtain ⟨hj, rfl⟩ := ends_mint.1 hv
    exact moved_of_next? hj ▸ .mint hj
  | remember old new =>
    simp only [Request.answer, ends_bind, ends_pure, ends_remember] at h
    obtain ⟨_, _, rfl, rfl, rfl⟩ := h
    exact hstill ▸ .remember old new
  | lookUp id =>
    simp only [Request.answer, ends_bind, ends_pure, ends_get] at h
    obtain ⟨_, _, ⟨rfl, rfl⟩, rfl, rfl⟩ := h
    exact hstill ▸ .lookUp id

lemma ends_of_serves (h : Serves s e t) :
    Ends e.request.answer s e.answer t ∧ e.minted = decide (t.maxId ≠ s.maxId) := by
  have hstill : false = decide (s.maxId ≠ s.maxId) := (decide_eq_false (not_not.2 rfl)).symm
  cases h with
  | known hset hv =>
    exact ⟨ends_some.2 ⟨_, (ends_exchange_set hset).2 (.inl ⟨hv, rfl⟩), rfl⟩, hstill⟩
  | first hset hnew hj =>
    exact ⟨ends_some.2 ⟨_, (ends_exchange_set hset).2 (.inr ⟨hnew, hj, rfl⟩), rfl⟩,
      (moved_of_next? hj).symm⟩
  | unset hj => exact ⟨ends_some.2 ⟨_, ends_mint.2 ⟨hj, rfl⟩, rfl⟩, (moved_of_next? hj).symm⟩
  | mint hj => exact ⟨ends_some.2 ⟨_, ends_mint.2 ⟨hj, rfl⟩, rfl⟩, (moved_of_next? hj).symm⟩
  | remember => exact ⟨rfl, hstill⟩
  | lookUp => exact ⟨rfl, hstill⟩

lemma ends_serve : Ends (serve r) s e t ↔ e.request = r ∧ Serves s e t := by
  rw [ends_serve_answer]
  constructor
  · rintro ⟨answer, hanswer, rfl⟩
    exact ⟨rfl, serves_of_ends hanswer⟩
  · rintro ⟨rfl, h⟩
    obtain ⟨hanswer, hminted⟩ := ends_of_serves h
    exact ⟨e.answer, hanswer, by rw [← hminted]⟩

/-- The counter moves by one when an id is minted, and else it stays. -/
lemma Serves.counter (h : Serves s e t) :
    e.minted = false ∧ t.maxId = s.maxId ∨
      e.minted = true ∧ e.answer = some t.maxId ∧ t.maxId.toNat = s.maxId.toNat + 1 := by
  cases h with
  | known => exact .inl ⟨rfl, rfl⟩
  | first _ _ hj => exact .inr ⟨rfl, rfl, NodeId.toNat_next hj⟩
  | unset hj => exact .inr ⟨rfl, rfl, NodeId.toNat_next hj⟩
  | mint hj => exact .inr ⟨rfl, rfl, NodeId.toNat_next hj⟩
  | remember => exact .inl ⟨rfl, rfl⟩
  | lookUp => exact .inl ⟨rfl, rfl⟩

lemma exchanged?_insert_of_gives {c : IdCounter} {old new : NodeId}
    (h : e.gives id = if old = id then some new else none) :
    (IdSupply.mk c (s.exchanged.insert old new)).exchanged? id =
      (e.gives id).or (s.exchanged? id) := by
  rw [exchanged?_insert, h]
  by_cases hid : id = old
  · rw [if_pos hid, if_pos hid.symm, Option.some_or]
  · rw [if_neg hid, if_neg (Ne.symm hid), Option.none_or]
    rfl

/-- What an event gives to a set id takes the place of what was remembered for it. -/
lemma Serves.exchanged? (h : Serves s e t) (hset : id.isSet) :
    t.exchanged? id = (e.gives id).or (s.exchanged? id) := by
  cases h with
  | known => simp [Event.gives]
  | first => exact exchanged?_insert_of_gives (by simp [Event.gives])
  | @unset j hj =>
    have hgives : Event.gives id ⟨.exchange .unset, some j, true⟩ = none :=
      if_neg fun h => NodeId.isSet_iff.1 hset h.1.symm
    rw [hgives, Option.none_or]
    rfl
  | mint => rfl
  | remember => exact exchanged?_insert_of_gives rfl
  | lookUp => rfl

/-- A set id is known from the time when it is named. -/
lemma Serves.isSome_iff (h : Serves s e t) (hset : id.isSet) :
    (t.exchanged? id).isSome ↔ (s.exchanged? id).isSome ∨ e.request.Names id := by
  have hgives : (t.exchanged? id).isSome ↔ (e.gives id).isSome ∨ (s.exchanged? id).isSome := by
    rw [h.exchanged? hset, Option.isSome_or, Bool.or_eq_true]
  rw [hgives, or_comm]
  cases h with
  | @known old v _ hv =>
    have hold : old = id → (s.exchanged? id).isSome := by
      rintro rfl
      rw [hv, Option.isSome_some]
    simpa [Event.gives, Request.Names] using hold
  | unset =>
    have hne : NodeId.unset ≠ id := (NodeId.isSet_iff.1 hset).symm
    simp [Event.gives, Request.Names, hne]
  | _ => simp [Event.gives, Request.Names]

/-- A request that pins nothing looks something up, or it is an exchange of an id, where a minting
counts as the exchange of an unset one. -/
lemma Serves.unpinned (h : Serves s e t) (hpin : ∀ old new, e.request ≠ .remember old new) :
    t = s ∧ e.handsOut? = none ∨ ∃ i v, e.handsOut? = some (i, v) ∧ Ends (exchange i) s v t := by
  cases h with
  | @known id v hset hv =>
    exact .inr ⟨id, v, rfl, (ends_exchange_set hset).2 (.inl ⟨hv, rfl⟩)⟩
  | @first id j hset hnew hj =>
    exact .inr ⟨id, j, rfl, (ends_exchange_set hset).2 (.inr ⟨hnew, hj, rfl⟩)⟩
  | @unset j hj => exact .inr ⟨.unset, j, rfl, ends_mint.2 ⟨hj, rfl⟩⟩
  | @mint j hj => exact .inr ⟨.unset, j, rfl, ends_mint.2 ⟨hj, rfl⟩⟩
  | remember old new => exact absurd rfl (hpin old new)
  | lookUp => exact .inl ⟨rfl, rfl⟩

/-! ### All requests -/

lemma mintedIds_concat (events : List Event) (e : Event) :
    mintedIds (events ++ [e]) = mintedIds events ++ if e.minted then e.answer.toList else [] := by
  rw [mintedIds, List.filter_append, List.filterMap_append, mintedIds]
  cases he : e.minted <;> cases ha : e.answer <;> simp [he, ha]

lemma lastGiven_concat (id : NodeId) (events : List Event) (e : Event) :
    lastGiven id (events ++ [e]) = (e.gives id).or (lastGiven id events) := by
  rw [lastGiven, List.filterMap_append, List.getLast?_append, lastGiven]
  cases he : e.gives id <;> simp [he]

/-- The events tell what the supply is. -/
structure Recorded (seed : NodeId) (events : List Event) (s : IdSupply) : Prop where
  consecutive : (mintedIds events).map NodeId.toNat =
    List.range' (seed.toNat + 1) (mintedIds events).length
  maxId_eq : s.maxId = (mintedIds events).getLastD seed
  count : s.maxId.toNat = seed.toNat + (mintedIds events).length
  exchanged?_eq : ∀ id, id.isSet → s.exchanged? id = lastGiven id events
  isSome_iff : ∀ id, id.isSet →
    ((s.exchanged? id).isSome ↔ ∃ e ∈ events, e.request.Names id)

lemma recorded_ofSeed (seed : NodeId) : Recorded seed [] (ofSeed seed) where
  consecutive := rfl
  maxId_eq := rfl
  count := rfl
  exchanged?_eq _ _ := rfl
  isSome_iff _ _ := by simp [ofSeed, exchanged?]

lemma Recorded.concat (h : Recorded seed events s) (hserves : Serves s e t) :
    Recorded seed (events ++ [e]) t := by
  have hexchanged : ∀ id, id.isSet → t.exchanged? id = lastGiven id (events ++ [e]) := by
    intro id hset
    rw [lastGiven_concat, hserves.exchanged? hset, h.exchanged?_eq id hset]
  have hnamed : ∀ id, id.isSet →
      ((t.exchanged? id).isSome ↔ ∃ d ∈ events ++ [e], d.request.Names id) := by
    intro id hset
    rw [hserves.isSome_iff hset, h.isSome_iff id hset]
    simp [or_and_right, exists_or]
  -- the counter and the list of minted ids move together or not at all
  rcases hserves.counter with ⟨hquiet, hmax⟩ | ⟨hminted, hanswer, hmax⟩
  · have hids : mintedIds (events ++ [e]) = mintedIds events := by simp [mintedIds_concat, hquiet]
    refine ⟨?_, ?_, ?_, hexchanged, hnamed⟩
    · rw [hids, h.consecutive]
    · rw [hids, hmax, h.maxId_eq]
    · rw [hids, hmax, h.count]
  · have hids : mintedIds (events ++ [e]) = mintedIds events ++ [t.maxId] := by
      simp [mintedIds_concat, hminted, hanswer]
    have hcount := h.count
    refine ⟨?_, ?_, ?_, hexchanged, hnamed⟩
    · rw [hids, List.map_append, h.consecutive, List.length_append, List.map_singleton,
        List.length_singleton, List.range'_concat, hmax, hcount]
      congr 2
      omega
    · rw [hids, List.getLastD_concat]
    · rw [hids, List.length_append, List.length_singleton]
      omega

/-- Where nothing is pinned, the ids handed out make up an injective renaming. -/
structure Renames (seed : NodeId) (events : List Event) (s : IdSupply) : Prop where
  sound : Sound seed s
  injective : s.InjectiveOn (fun _ => True)
  gave : ∀ e ∈ events, ∀ i v, e.handsOut? = some (i, v) → Gave s i v ∧ v.toNat ≤ s.maxId.toNat

lemma renames_ofSeed (seed : NodeId) : Renames seed [] (ofSeed seed) :=
  ⟨sound_ofSeed seed, injectiveOn_ofSeed _ seed, fun _ he => nomatch he⟩

lemma Renames.concat (h : Renames seed events s) (hserves : Serves s e t)
    (hpin : ∀ old new, e.request ≠ .remember old new) : Renames seed (events ++ [e]) t := by
  rcases hserves.unpinned hpin with ⟨rfl, hnone⟩ | ⟨i, v, hout, hends⟩
  · refine ⟨h.sound, h.injective, fun d hd i v hdi => ?_⟩
    rcases List.mem_append.1 hd with hd | hd
    · exact h.gave d hd i v hdi
    · rw [List.mem_singleton.1 hd, hnone] at hdi
      cases hdi
  · have hextends := exchange_extends hends
    refine ⟨exchange_sound hends h.sound, exchange_injectiveOn hends h.sound h.injective,
      fun d hd i' v' hdi => ?_⟩
    rcases List.mem_append.1 hd with hd | hd
    · obtain ⟨hgave, hle⟩ := h.gave d hd i' v' hdi
      exact ⟨hgave.mono hle hextends, Nat.le_trans hle hextends.max_le⟩
    · rw [List.mem_singleton.1 hd, hout] at hdi
      cases hdi
      exact ⟨exchange_gave hends h.sound, (exchange_bounds hends h.sound).2.1⟩

/-- What every event keeps holds after all of them. -/
lemma thread_concat {P : List Event → IdSupply → Prop} {requests : List Request} {past : List Event}
    (hstep : ∀ past e s t, P past s → Serves s e t → P (past ++ [e]) t)
    (h : Thread (fun r => Ends (serve r)) requests s events t) (hs : P past s) :
    P (past ++ events) t := by
  induction h generalizing past with
  | nil => rwa [List.append_nil]
  | cons head _ ih =>
    have hrest := ih (hstep _ _ _ _ hs (ends_serve.1 head).2)
    rwa [List.append_assoc, List.singleton_append] at hrest

lemma recorded_of_thread {requests : List Request}
    (h : Thread (fun r => Ends (serve r)) requests (ofSeed seed) events s) :
    Recorded seed events s :=
  thread_concat (fun _ _ _ _ hpast hserves => hpast.concat hserves) h (recorded_ofSeed seed)

lemma renames_of_thread {requests : List Request}
    (h : Thread (fun r => Ends (serve r)) requests (ofSeed seed) events s)
    (hpin : ∀ e ∈ events, ∀ old new, e.request ≠ .remember old new) : Renames seed events s := by
  refine thread_concat (P := fun past s =>
    (∀ e ∈ past, ∀ old new, e.request ≠ .remember old new) → Renames seed past s) ?_ h
    (fun _ => renames_ofSeed seed) hpin
  intro past e s t hpast hserves hpin
  obtain ⟨hbefore, he⟩ := List.forall_mem_append.1 hpin
  exact (hpast hbefore).concat hserves (he e List.mem_cons_self)

lemma requests_of_thread {requests : List Request}
    (h : Thread (fun r => Ends (serve r)) requests s events t) :
    events.map Event.request = requests := by
  have hrequests := (h.imp id fun r _ s e t hends => (ends_serve.1 hends).1).map_eq
  rwa [List.map_id'] at hrequests

/-! ### The next request -/

lemma mint_eq_error (h : s.maxId.next? = none) : mint.run s = .error .idOverflow := by
  have hnext : s.counter.next = .error .idOverflow := by
    rw [IdCounter.next, show s.counter.max.next? = none from h]
  change (s.counter.next >>= fun p => Except.ok (p, s)) >>= _ = _
  rw [hnext]
  rfl

lemma exchange_eq_error (hunknown : id.isSet → s.exchanged? id = none) (h : s.maxId.next? = none) :
    (exchange id).run s = .error .idOverflow := by
  by_cases hset : id.isSet
  · simp only [exchange, hset, if_true, StateT.run_bind, StateT.run_get, pure_bind, hunknown hset,
      mint_eq_error h]
    rfl
  · rw [exchange, if_neg hset]
    exact mint_eq_error h

lemma serve_eq_error {error : EditError} (h : r.answer.run s = .error error) :
    (serve r).run s = .error error := by
  change (r.answer.run s) >>= _ = _
  rw [h]
  rfl

lemma Recorded.exchanged?_eq_none (h : Recorded seed events s)
    (hnew : Request.AsksForNew (events.map Event.request) (.exchange id)) (hset : id.isSet) :
    s.exchanged? id = none := by
  rw [← Option.not_isSome_iff_eq_none, h.isSome_iff id hset]
  rintro ⟨e, he, hnames⟩
  rcases hnew with rfl | hnew
  · exact NodeId.isSet_iff.1 hset rfl
  · exact hnew _ (List.mem_map_of_mem he) hnames

lemma Recorded.serves_new (h : Recorded seed events s)
    (hnew : r.AsksForNew (events.map Event.request)) (hj : s.maxId.next? = some j) :
    ∃ t, Serves s ⟨r, some j, true⟩ t ∧ t.maxId = j := by
  cases r with
  | exchange id =>
    by_cases hset : id.isSet
    · exact ⟨_, .first hset (h.exchanged?_eq_none hnew hset) hj, rfl⟩
    · rw [NodeId.isSet_iff, not_not] at hset
      subst hset
      exact ⟨_, .unset hj, rfl⟩
  | mint => exact ⟨_, .mint hj, rfl⟩
  | remember => exact hnew.elim
  | lookUp => exact hnew.elim

lemma Recorded.refuses_new (h : Recorded seed events s)
    (hnew : r.AsksForNew (events.map Event.request)) (hj : s.maxId.next? = none) :
    (serve r).run s = .error .idOverflow := by
  apply serve_eq_error
  cases r with
  | exchange id =>
    rw [Request.answer, StateT.run_bind, exchange_eq_error (h.exchanged?_eq_none hnew) hj]
    rfl
  | mint =>
    rw [Request.answer, StateT.run_bind, mint_eq_error hj]
    rfl
  | remember => exact hnew.elim
  | lookUp => exact hnew.elim

/-- A request for a new id gets the next one, unless there is none. -/
lemma Recorded.serve_new (h : Recorded seed events s)
    (hnew : r.AsksForNew (events.map Event.request)) :
    UInt64.size ≤ s.maxId.toNat + 1 ∧ (serve r).run s = .error .idOverflow ∨
      ∃ t, (serve r).run s = .ok (⟨r, some t.maxId, true⟩, t) ∧
        t.maxId.toNat = s.maxId.toNat + 1 := by
  cases hj : s.maxId.next? with
  | none =>
    refine .inl ⟨Nat.le_of_not_lt fun hroom => ?_, h.refuses_new hnew hj⟩
    obtain ⟨j, hsome⟩ := exists_next hroom
    rw [hj] at hsome
    cases hsome
  | some j =>
    obtain ⟨t, hserves, rfl⟩ := h.serves_new hnew hj
    exact .inr ⟨t, ends_serve.2 ⟨rfl, hserves⟩, NodeId.toNat_next hj⟩

lemma Recorded.serve_known (h : Recorded seed events s) (hset : id.isSet)
    (hnamed : ∃ r ∈ events.map Event.request, r.Names id) :
    ∃ v, lastGiven id events = some v ∧
      (serve (.exchange id)).run s = .ok (⟨.exchange id, some v, false⟩, s) := by
  obtain ⟨_, hr, hnames⟩ := hnamed
  obtain ⟨e, he, rfl⟩ := List.mem_map.1 hr
  have hsome := (h.isSome_iff id hset).2 ⟨e, he, hnames⟩
  obtain ⟨v, hv⟩ := Option.isSome_iff_exists.1 hsome
  exact ⟨v, (h.exchanged?_eq id hset).symm.trans hv, ends_serve.2 ⟨rfl, .known hset hv⟩⟩

lemma Answered.handsOut {i v : NodeId} (h : Answered events r v) (hr : r.recipient? = some i) :
    ∃ e ∈ events, e.handsOut? = some (i, v) := by
  obtain ⟨e, he, rfl, hanswer⟩ := h
  refine ⟨e, he, ?_⟩
  rw [Event.handsOut?, hr, hanswer]
  rfl

lemma Renames.eq_iff (h : Renames seed events s) {i i' v v' : NodeId} (hset : i.isSet)
    (hset' : i'.isSet) (hv : Answered events (.exchange i) v)
    (hv' : Answered events (.exchange i') v') : v = v' ↔ i = i' := by
  obtain ⟨e, he, hout⟩ := hv.handsOut rfl
  obtain ⟨e', he', hout'⟩ := hv'.handsOut rfl
  have hgave := (h.gave e he i v hout).1.1 hset
  have hgave' := (h.gave e' he' i' v' hout').1.1 hset'
  constructor
  · rintro rfl
    exact h.injective i i' v trivial trivial hgave hgave'
  · rintro rfl
    rw [hgave, Option.some.injEq] at hgave'
    exact hgave'

lemma Renames.ne_of_unset (h : Renames seed events s) {i v w : NodeId} (hset : i.isSet)
    (hv : Answered events (.exchange i) v)
    (hw : Answered events (.exchange .unset) w ∨ Answered events .mint w) : v ≠ w := by
  obtain ⟨e, he, hout⟩ := hv.handsOut rfl
  obtain ⟨e', he', hout'⟩ := hw.elim (fun hw => hw.handsOut rfl) (fun hw => hw.handsOut rfl)
  rintro rfl
  exact (h.gave e' he' .unset v hout').1.2 rfl i ((h.gave e he i v hout).1.1 hset)

/-- After any sequence of requests that is not refused, the ids minted follow the seed without a gap
and the counter is at the last of them. A set id that was exchanged or pinned before is exchanged
for the id last minted for it or pinned to it, which is also what is looked up for it, and the
supply stays as it is. Any other exchange, and every minting, gets the next id, as long as there is
one. Where nothing was pinned, the exchanges of set ids are a function, which is injective and never
gives an id that was handed out for an unset id or minted by itself. -/
theorem exchange_is_stable_renaming {seed : NodeId} {requests : List Request} {events : List Event}
    {s : IdSupply} (h : (requests.mapM serve).run (ofSeed seed) = .ok (events, s)) :
    events.map Event.request = requests ∧
    (mintedIds events).map NodeId.toNat =
      List.range' (seed.toNat + 1) (mintedIds events).length ∧
    s.maxId = (mintedIds events).getLastD seed ∧
    (∀ id, id.isSet → (∃ r ∈ requests, r.Names id) →
      ∃ v, lastGiven id events = some v ∧
        (serve (.exchange id)).run s = .ok (⟨.exchange id, some v, false⟩, s)) ∧
    (∀ r, r.AsksForNew requests →
      UInt64.size ≤ s.maxId.toNat + 1 ∧ (serve r).run s = .error .idOverflow ∨
      ∃ t, (serve r).run s = .ok (⟨r, some t.maxId, true⟩, t) ∧
        t.maxId.toNat = s.maxId.toNat + 1) ∧
    (∀ id, id.isSet →
      (serve (.lookUp id)).run s = .ok (⟨.lookUp id, lastGiven id events, false⟩, s)) ∧
    ((∀ old new, .remember old new ∉ requests) →
      (∀ i i' v v', i.isSet → i'.isSet → Answered events (.exchange i) v →
        Answered events (.exchange i') v' → (v = v' ↔ i = i')) ∧
      ∀ i v w, i.isSet → Answered events (.exchange i) v →
        Answered events (.exchange .unset) w ∨ Answered events .mint w → v ≠ w) := by
  have hthread : Thread (fun r => Ends (serve r)) requests (ofSeed seed) events s :=
    (ends_listMapM ..).1 h
  have hrecorded := recorded_of_thread hthread
  obtain rfl := requests_of_thread hthread
  refine ⟨rfl, hrecorded.consecutive, hrecorded.maxId_eq, fun id => hrecorded.serve_known,
    fun r => hrecorded.serve_new, fun id hset => ?_, fun hpin => ?_⟩
  · rw [← hrecorded.exchanged?_eq id hset]
    exact ends_serve.2 ⟨rfl, .lookUp id⟩
  · have hrenames := renames_of_thread hthread fun e he old new hrequest =>
      hpin old new (hrequest ▸ List.mem_map_of_mem he)
    exact ⟨fun i i' v v' hset => hrenames.eq_iff hset, fun i v w hset => hrenames.ne_of_unset hset⟩

/-- From the seed 10 the id 4 is pinned to 12 before 12 is minted for an unset id, and 3 is pinned
to 1 after 11 was minted for it. Without pins 3 and 4 are exchanged for 11 and 13, with a minting
between them. -/
theorem exchange_is_stable_renaming_overtaken :
    let pinned : List Request :=
      [.exchange ⟨3⟩, .remember ⟨4⟩ ⟨12⟩, .exchange .unset, .exchange ⟨4⟩, .remember ⟨3⟩ ⟨1⟩]
    let unpinned : List Request :=
      [.exchange ⟨3⟩, .mint, .exchange ⟨4⟩, .exchange .unset, .exchange ⟨3⟩, .lookUp ⟨4⟩]
    (∃ events s, (pinned.mapM serve).run (ofSeed ⟨10⟩) = .ok (events, s) ∧
      mintedIds events = [⟨11⟩, ⟨12⟩] ∧ s.maxId = ⟨12⟩ ∧
      (serve (.exchange ⟨4⟩)).run s = .ok (⟨.exchange ⟨4⟩, some ⟨12⟩, false⟩, s) ∧
      (serve (.lookUp ⟨3⟩)).run s = .ok (⟨.lookUp ⟨3⟩, some ⟨1⟩, false⟩, s)) ∧
    ∃ events s, (unpinned.mapM serve).run (ofSeed ⟨10⟩) = .ok (events, s) ∧
      Answered events (.exchange ⟨3⟩) ⟨11⟩ ∧ Answered events (.exchange ⟨4⟩) ⟨13⟩ ∧
      ∀ w, Answered events (.exchange .unset) w ∨ Answered events .mint w →
        ⟨11⟩ ≠ w ∧ ⟨13⟩ ≠ w := by
  intro pinned unpinned
  constructor
  · have hrun : ∃ events s, (pinned.mapM serve).run (ofSeed ⟨10⟩) = .ok (events, s) ∧
        mintedIds events = [⟨11⟩, ⟨12⟩] ∧ lastGiven ⟨4⟩ events = some ⟨12⟩ ∧
        lastGiven ⟨3⟩ events = some ⟨1⟩ :=
      ⟨_, _, rfl, rfl, rfl, rfl⟩
    obtain ⟨events, s, hrun, hminted, hfour, hthree⟩ := hrun
    obtain ⟨-, -, hmax, hknown, -, hlookUp, -⟩ := exchange_is_stable_renaming hrun
    obtain ⟨v, hv, hserve⟩ := hknown ⟨4⟩ rfl ⟨.remember ⟨4⟩ ⟨12⟩, by decide, rfl⟩
    refine ⟨events, s, hrun, hminted, ?_, ?_, ?_⟩
    · rw [hmax, hminted]
      rfl
    · rw [hfour, Option.some.injEq] at hv
      rw [hv]
      exact hserve
    · rw [← hthree]
      exact hlookUp ⟨3⟩ rfl
  · have hrun : ∃ events s, (unpinned.mapM serve).run (ofSeed ⟨10⟩) = .ok (events, s) ∧
        events[0]? = some ⟨.exchange ⟨3⟩, some ⟨11⟩, true⟩ ∧
        events[2]? = some ⟨.exchange ⟨4⟩, some ⟨13⟩, true⟩ :=
      ⟨_, _, rfl, rfl, rfl⟩
    obtain ⟨events, s, hrun, hfirst, hthird⟩ := hrun
    have hthree : Answered events (.exchange ⟨3⟩) ⟨11⟩ :=
      ⟨_, List.mem_of_getElem? hfirst, rfl, rfl⟩
    have hfour : Answered events (.exchange ⟨4⟩) ⟨13⟩ :=
      ⟨_, List.mem_of_getElem? hthird, rfl, rfl⟩
    obtain ⟨-, hapart⟩ := (exchange_is_stable_renaming hrun).2.2.2.2.2.2 (by simp [unpinned])
    exact ⟨events, s, hrun, hthree, hfour, fun w hw =>
      ⟨hapart ⟨3⟩ ⟨11⟩ w rfl hthree hw, hapart ⟨4⟩ ⟨13⟩ w rfl hfour hw⟩⟩

end CelEdit.IdSupply
