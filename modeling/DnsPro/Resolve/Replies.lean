import DnsPro.Resolve.Reflection
import DnsPro.Resolve.Snapshot
import DnsPro.Zone.History

/-!
# Replies taken further

What other clients may do to a resolution, and what they may learn from one. They may update the
zone meanwhile: as long as they leave the name of the first question alone, the response is the one
of the zone it found. And no sequence of updates and queries tells apart two zones that `lookup`
does not tell apart.
-/

namespace DnsPro.Resolve

open Packet Container ZoneStore RecordLog DnsPro.Parser DnsPro.Builder DnsPro.Resolver DnsPro.Wire

set_option autoImplicit false

variable {H : Type → Type → Type} [FiniteMap H]

/-! ### Updates of other names -/

/-- The update leaves all records filed under the key where they are, and adds none. -/
def Misses (key : Key) : Update → Prop
  | .addRecord record => keyOf record ≠ key
  | .removeRecord name _ => canonicalize name ≠ key
  | .clear => False

/-- The logs have the same records under the key, in the same order. -/
def SameUnder (key : Key) (log log' : RecordLog) : Prop :=
  log.filter (fun r => keyOf r = key) = log'.filter (fun r => keyOf r = key)

section Untouched
variable {key : Key} {log log' log'' : RecordLog} {q : Message}

theorem SameUnder.update (h : SameUnder key log log') {u : Update} (hu : Misses key u) :
    SameUnder key log (RecordLog.update u log') := by
  refine Eq.trans h ?_
  cases u with
  | addRecord record =>
    have hother : keyOf record ≠ key := hu
    simp [RecordLog.update, RecordLog.add, hother]
  | removeRecord name type =>
    have hother : canonicalize name ≠ key := hu
    show _ = (unfiled keyOf ResourceRecord.type (canonicalize name) type log').filter _
    rw [unfiled, List.filter_filter]
    apply List.filter_congr
    intro r _
    by_cases hr : keyOf r = key
    · have hkept : keyOf r ≠ canonicalize name := fun hsame => hother (hsame.symm.trans hr)
      simp [hr, Ne.symm hother]
    · simp [hr]
  | clear => exact hu.elim

theorem SameUnder.recordsOf_eq {name : Name} (h : SameUnder (canonicalize name) log log')
    (type : UInt16) : recordsOf name type log = recordsOf name type log' := by
  have split (log : RecordLog) : recordsOf name type log =
      (log.filter fun r => keyOf r = canonicalize name).filter fun r => r.type = type := by
    rw [recordsOf, filed, List.filter_filter]
    apply List.filter_congr
    intro r _
    simp [and_comm]
  rw [split, split, h]

theorem SameUnder.holds_iff {name : Name} (h : SameUnder (canonicalize name) log log') :
    Holds log name ↔ Holds log' name := by
  have holds (log : RecordLog) :
      Holds log name ↔ log.filter (fun r => keyOf r = canonicalize name) ≠ [] := by
    simp [Holds]
  rw [holds, holds, h]

/-- A reply depends on the records under the first question's name only. -/
theorem replyTo_congr (h : ∀ question rest, q.questions = question :: rest →
    SameUnder (canonicalize question.qname) log log') : replyTo log' q = replyTo log q := by
  unfold replyTo answersTo rcodeFor
  cases hq : q.questions with
  | nil => rfl
  | cons question rest =>
    have hsame := h question rest hq
    simp only [hsame.recordsOf_eq, hsame.holds_iff]

/-- The zone now, and all zones the resolution has seen, have the same records under the key. -/
structure Untouched (key : Key) (log : RecordLog) (s : Machine H) : Prop where
  now : SameUnder key log s.now.log
  window : ∀ m ∈ s.window, SameUnder key log m.log

variable {s : Machine H} {response : Buffer}

theorem resolverStep_window (q : Message) (response : Buffer) (s : Machine H) :
    (resolverStep q response s).now = s.now ∧
      ((resolverStep q response s).window = s.window ∨
        (resolverStep q response s).window = [s.now]) := by
  obtain ⟨now, phase, window⟩ := s
  unfold Resolve.resolverStep
  cases phase with
  | ready =>
    cases q.questions with
    | nil => exact ⟨rfl, Or.inr rfl⟩
    | cons question rest =>
      dsimp only
      split
      · exact ⟨rfl, Or.inr rfl⟩
      · exact ⟨rfl, Or.inr rfl⟩
  | looked question => exact ⟨rfl, Or.inl rfl⟩
  | done result => exact ⟨rfl, Or.inl rfl⟩

theorem clientStep_window (u : Update) (s : Machine H) :
    (clientStep u s).now = s.now.update u ∧
      ((clientStep u s).window = s.window ∨
        (clientStep u s).window = s.window ++ [s.now.update u]) := by
  obtain ⟨now, phase, window⟩ := s
  unfold Resolve.clientStep
  cases phase with
  | looked question => exact ⟨rfl, Or.inr rfl⟩
  | ready => exact ⟨rfl, Or.inl rfl⟩
  | done result => exact ⟨rfl, Or.inl rfl⟩

theorem Untouched.resolverStep (h : Untouched key log s) :
    Untouched key log (resolverStep q response s) := by
  obtain ⟨hnow, hwindow⟩ := resolverStep_window q response s
  refine ⟨by rw [hnow]; exact h.now, fun m hm => ?_⟩
  rcases hwindow with hsame | hsingle
  · rw [hsame] at hm
    exact h.window m hm
  · rw [hsingle] at hm
    rw [List.mem_singleton.mp hm]
    exact h.now

theorem Untouched.clientStep (h : Untouched key log s) {u : Update} (hu : Misses key u) :
    Untouched key log (clientStep u s) := by
  have hnext : SameUnder key log (s.now.update u).log := h.now.update hu
  obtain ⟨hnow, hwindow⟩ := clientStep_window u s
  refine ⟨by rw [hnow]; exact hnext, fun m hm => ?_⟩
  rcases hwindow with hsame | hmore
  · rw [hsame] at hm
    exact h.window m hm
  · rw [hmore] at hm
    rcases List.mem_append.mp hm with hm | hm
    · exact h.window m hm
    · rw [List.mem_singleton.mp hm]
      exact hnext

theorem Untouched.foldl (h : Untouched key log s) {events : List Event}
    (hmisses : ∀ u, Event.client u ∈ events → Misses key u) :
    Untouched key log (events.foldl (machineStep q response) s) := by
  induction events generalizing s with
  | nil => exact h
  | cons event events ih =>
    apply ih
    · cases event with
      | resolver => exact h.resolverStep
      | client u => exact h.clientStep (hmisses u List.mem_cons_self)
    · intro u hu
      exact hmisses u (List.mem_cons_of_mem _ hu)

/-- What a finished resolution returns, when the first question's name was left alone. -/
theorem MachineInv.result_of_untouched (h : MachineInv q response s) {question : Question}
    {rest : List Question} (hq : q.questions = question :: rest)
    (hsame : Untouched (canonicalize question.qname) log s) {result : Status × Buffer}
    (hdone : s.phase = .done result) : result = build (replyTo log q) response := by
  have reply {log' : RecordLog} (hlog : SameUnder (canonicalize question.qname) log log') :
      replyTo log' q = replyTo log q := by
    apply replyTo_congr
    intro question' rest' hq'
    rw [hq] at hq'
    cases hq'
    exact hlog
  have hprogress := h.progress
  have hwindow := hsame.window
  rw [hdone] at hprogress
  generalize s.now = now at hprogress
  generalize s.window = window at hprogress hwindow
  cases hprogress with
  | noQuestion hq' =>
    rw [hq] at hq'
    cases hq'
  | @answered question' rest' m hq' hfound =>
    rw [reply (hwindow m (List.mem_singleton_self m))]
  | @unanswered question' rest' first last later hq' hnone hlast =>
    rw [hq] at hq'
    cases hq'
    have hfirst := hwindow first List.mem_cons_self
    have hsame := hwindow last (List.mem_of_getLast? hlast)
    rw [← hfirst.recordsOf_eq, hsame.recordsOf_eq] at hnone
    rw [← replyTo_of_no_records hq hnone, reply hsame]

end Untouched

/-- In every interleaving with clients that leave the name of the first question alone, a finished
resolution returns what it returns alone on the zone as it was at the beginning. -/
theorem resolve_unaffected {zone : ZoneStore H} {log : RecordLog} (hzone : Reached zone log)
    {query : Buffer} {out q : Message} (hparse : parse query out = (.OK, q)) (response : Buffer)
    (events : List Event)
    (hmisses : ∀ question rest, q.questions = question :: rest → ∀ u, Event.client u ∈ events →
      Misses (canonicalize question.qname) u)
    {result : Status × Buffer}
    (hdone : (machineRun q response events ⟨zone, log⟩).phase = .done result) :
    result = resolve zone query response := by
  rw [resolve_of_parse_ok hzone.represents hparse]
  have hinv := machineInv_run (m := ⟨zone, log⟩) hzone.represents q response events
  cases hq : q.questions with
  | nil =>
    have hreply : replyTo log q = formatError q := by
      simp [replyTo, answersTo, rcodeFor, hq, formatError, Message.blank]
    have hprogress := hinv.progress
    rw [hdone] at hprogress
    generalize (machineRun q response events ⟨zone, log⟩).window = window at hprogress
    rw [hreply]
    cases hprogress with
    | noQuestion _ => rfl
    | answered hq' _ =>
      rw [hq] at hq'
      cases hq'
    | unanswered hq' _ _ =>
      rw [hq] at hq'
      cases hq'
  | cons question rest =>
    have hstart : Untouched (canonicalize question.qname) log
        (⟨⟨zone, log⟩, .ready, []⟩ : Machine H) := ⟨rfl, fun m hm => by cases hm⟩
    exact hinv.result_of_untouched hq (hstart.foldl (hmisses question rest hq)) hdone

/-- Another name is added, and a second one removed, while the host's address is looked up. -/
def updateOthers : List Event :=
  [.client (.addRecord ⟨⟨[[97]]⟩, 1, 1, 0, [], 0⟩), .resolver,
    .client (.removeRecord ⟨[[98], [97]]⟩ 1), .resolver]

theorem resolve_unaffected_host :
    (.OK, hostAnswerBytes) = resolve (zoneOf hostRecord) hostQuery [] := by
  have hdone : (machineRun (parse hostQuery Message.blank).2 [] updateOthers
      ⟨zoneOf hostRecord, [hostRecord]⟩).phase = .done (.OK, hostAnswerBytes) := by
    decide +kernel
  apply resolve_unaffected (reached_zoneOf hostRecord) hostQuery_accepted [] updateOthers _ hdone
  intro question rest hq u hu
  rw [hostQuery_questions] at hq
  cases hq
  simp only [updateOthers, List.mem_cons, Event.client.injEq, List.not_mem_nil, or_false,
    reduceCtorEq, false_or] at hu
  rcases hu with hu | hu
  · rw [hu]
    show canonicalize _ ≠ canonicalize _
    decide +kernel
  · rw [hu]
    show canonicalize _ ≠ canonicalize _
    decide +kernel

/-! ### Zones that lookups cannot tell apart -/

theorem resolve_of_sameView {zone zone' : ZoneStore H} (h : SameView zone zone')
    (query response : Buffer) : resolve zone query response = resolve zone' query response := by
  have hmessage : ∀ q, responseMessage zone q = responseMessage zone' q := by
    intro q
    simp only [responseMessage, h.lookup, h.hasName]
  simp only [resolve, hmessage]

/-- Two zones, whatever their past, with the same answers to all lookups: whatever updates follow,
every member keeps giving the same answers, and every query gets the same status and response. -/
theorem lookups_determine_zone {zone zone' : ZoneStore H} {log log' : RecordLog}
    (hzone : Reached zone log) (hzone' : Reached zone' log')
    (hlookup : ∀ name type, zone.lookup name type = zone'.lookup name type)
    (updates : List Update) :
    SameView (ZoneStore.updateAll updates zone) (ZoneStore.updateAll updates zone') ∧
    (∀ name type, ((ZoneStore.updateAll updates zone).removeRecord name type).1 =
      ((ZoneStore.updateAll updates zone').removeRecord name type).1) ∧
    ∀ query response, resolve (ZoneStore.updateAll updates zone) query response =
      resolve (ZoneStore.updateAll updates zone') query response := by
  obtain ⟨hview, hremove⟩ := sameView_of_lookup hzone hzone' hlookup updates
  exact ⟨hview, hremove, resolve_of_sameView hview⟩

/-- Records of two types added in the one and in the other order. -/
theorem lookups_determine_zone_orders :
    resolve (zoneOf hostRecord |>.addRecord { hostRecord with type := 28 }) hostQuery [] =
      resolve (zoneOf { hostRecord with type := 28 } |>.addRecord hostRecord) hostQuery [] := by
  have hzone : Reached (zoneOf hostRecord |>.addRecord { hostRecord with type := 28 })
      [hostRecord, { hostRecord with type := 28 }] :=
    reached_updateAll [.addRecord hostRecord, .addRecord { hostRecord with type := 28 }]
  have hzone' : Reached (zoneOf { hostRecord with type := 28 } |>.addRecord hostRecord)
      [{ hostRecord with type := 28 }, hostRecord] :=
    reached_updateAll [.addRecord { hostRecord with type := 28 }, .addRecord hostRecord]
  refine (lookups_determine_zone hzone hzone' (fun name type => ?_) []).2.2 hostQuery []
  rw [hzone.represents.lookup, hzone'.represents.lookup]
  by_cases htype : 1 = type
  · subst htype
    simp [recordsOf, filed, List.filter_cons, hostRecord]
  · simp [recordsOf, filed, List.filter_cons, hostRecord, htype]

end DnsPro.Resolve
