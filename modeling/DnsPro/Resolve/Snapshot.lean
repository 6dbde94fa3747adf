import DnsPro.Resolve.ResponseSpec

/-!
# A resolution among other clients

Every public member of the store holds its mutex throughout, so the calls of all clients happen
one after another, while `Resolver::resolve` makes up to two of them: `lookup`, and `hasName` when
nothing was found. Other clients may change the zone in between. The machine below takes one store
call at a time in any order, and remembers the states the zone was in from the first call of the
resolution to its last.
-/

namespace DnsPro.Resolve

open Packet Container ZoneStore RecordLog DnsPro.Parser DnsPro.Builder DnsPro.Resolver DnsPro.Wire

set_option autoImplicit false

variable {H : Type → Type → Type} [FiniteMap H]

structure Moment (H : Type → Type → Type) where
  zone : ZoneStore H
  log : RecordLog

/-- How far the resolution is: it may be waiting for its `hasName` call. -/
inductive Phase where
  | ready
  | looked (question : Question)
  | done (result : Status × Buffer)
  deriving DecidableEq

/-- The zone now, the resolution, and the states of the zone since its first store call. -/
structure Machine (H : Type → Type → Type) where
  now : Moment H
  phase : Phase
  window : List (Moment H)

inductive Event where
  | resolver
  | client (u : Update)

def Moment.update (u : Update) (m : Moment H) : Moment H :=
  ⟨ZoneStore.update u m.zone, RecordLog.update u m.log⟩

/-- What the resolution does from one store call to the next. -/
def resolverStep (q : Message) (response : Buffer) (s : Machine H) : Machine H :=
  match s.phase with
  | .ready =>
    match q.questions with
    | [] => ⟨s.now, .done (build (formatError q) response), [s.now]⟩
    | question :: _ =>
      let records := s.now.zone.lookup question.qname question.qtype
      if records ≠ [] then
        ⟨s.now, .done (build (answered q question records) response), [s.now]⟩
      else ⟨s.now, .looked question, [s.now]⟩
  | .looked question =>
    let nameExists := s.now.zone.hasName question.qname
    ⟨s.now, .done (build (unanswered q question nameExists) response), s.window⟩
  | .done _ => s

def clientStep (u : Update) (s : Machine H) : Machine H :=
  match s.phase with
  | .looked _ => ⟨s.now.update u, s.phase, s.window ++ [s.now.update u]⟩
  | _ => ⟨s.now.update u, s.phase, s.window⟩

def machineStep (q : Message) (response : Buffer) (s : Machine H) : Event → Machine H
  | .resolver => resolverStep q response s
  | .client u => clientStep u s

def machineRun (q : Message) (response : Buffer) (events : List Event) (m : Moment H) :
    Machine H :=
  events.foldl (machineStep q response) ⟨m, .ready, []⟩

/-- With no other client in between, the machine does what `resolve` does. -/
theorem machineRun_alone {query : Buffer} {out q : Message} (hparse : parse query out = (.OK, q))
    (response : Buffer) (m : Moment H) :
    (machineRun q response [.resolver, .resolver] m).phase =
      .done (resolve m.zone query response) := by
  rw [resolve, parse_blank_of_parse hparse]
  simp only [machineRun, machineStep, List.foldl_cons, List.foldl_nil, responseMessage]
  cases hq : q.questions with
  | nil => simp [resolverStep, hq]
  | cons question rest =>
    by_cases hfound : m.zone.lookup question.qname question.qtype = []
    · simp [resolverStep, hq, hfound]
    · simp [resolverStep, hq, hfound]

/-! ### What a machine can look like -/

/-- The resolution's progress against the states it has seen. -/
inductive Progress (q : Message) (response : Buffer) (now : Moment H) :
    Phase → List (Moment H) → Prop where
  | ready : Progress q response now .ready []
  | looked {question : Question} {rest : List Question} {first : Moment H}
      {later : List (Moment H)} : q.questions = question :: rest →
      recordsOf question.qname question.qtype first.log = [] →
      (first :: later).getLast? = some now →
      Progress q response now (.looked question) (first :: later)
  | noQuestion {m : Moment H} : q.questions = [] →
      Progress q response now (.done (build (formatError q) response)) [m]
  | answered {question : Question} {rest : List Question} {m : Moment H} :
      q.questions = question :: rest →
      recordsOf question.qname question.qtype m.log ≠ [] →
      Progress q response now (.done (build (replyTo m.log q) response)) [m]
  | unanswered {question : Question} {rest : List Question} {first last : Moment H}
      {later : List (Moment H)} : q.questions = question :: rest →
      recordsOf question.qname question.qtype first.log = [] →
      (first :: later).getLast? = some last →
      Progress q response now
        (.done (build (unanswered q question (decide (Holds last.log question.qname))) response))
        (first :: later)

/-- The logs are those of the zones, and the progress is one of the above. -/
structure MachineInv (q : Message) (response : Buffer) (s : Machine H) : Prop where
  now : Represents s.now.zone s.now.log
  window : ∀ m ∈ s.window, Represents m.zone m.log
  progress : Progress q response s.now s.phase s.window

section Invariant

variable {q : Message} {response : Buffer} {s : Machine H}

theorem replyTo_of_records {log : RecordLog} {question : Question} {rest : List Question}
    (hq : q.questions = question :: rest)
    (hfound : recordsOf question.qname question.qtype log ≠ []) :
    replyTo log q = answered q question (recordsOf question.qname question.qtype log) := by
  have hname : Holds log question.qname := holds_of_recordsOf_ne_nil hfound
  simp [replyTo, answersTo, rcodeFor, hq, hname, answered, responseHeader, Message.blank]

theorem MachineInv.resolverStep (h : MachineInv q response s) :
    MachineInv q response (resolverStep q response s) := by
  obtain ⟨hnow, hwindow, hprogress⟩ := h
  obtain ⟨now, phase, window⟩ := s
  have hsingle : ∀ m ∈ [now], Represents m.zone m.log := by
    intro m hm
    rw [List.mem_singleton.mp hm]
    exact hnow
  cases hprogress with
  | ready =>
    unfold Resolve.resolverStep
    cases hq : q.questions with
    | nil => exact ⟨hnow, hsingle, .noQuestion hq⟩
    | cons question rest =>
      have hlookup := hnow.lookup question.qname question.qtype
      by_cases hfound : recordsOf question.qname question.qtype now.log = []
      · simp only [hlookup, hfound, ne_eq, not_true_eq_false, if_false]
        exact ⟨hnow, hsingle, .looked hq hfound rfl⟩
      · simp only [hlookup, ne_eq, hfound, not_false_eq_true, if_true]
        rw [← replyTo_of_records hq hfound]
        exact ⟨hnow, hsingle, .answered hq hfound⟩
  | looked hq hnone hlast =>
    simp only [Resolve.resolverStep, hnow.hasName_eq]
    exact ⟨hnow, hwindow, .unanswered hq hnone hlast⟩
  | noQuestion hq => exact ⟨hnow, hwindow, .noQuestion hq⟩
  | answered hq hfound => exact ⟨hnow, hwindow, .answered hq hfound⟩
  | unanswered hq hnone hlast => exact ⟨hnow, hwindow, .unanswered hq hnone hlast⟩

theorem MachineInv.clientStep (h : MachineInv q response s) (u : Update) :
    MachineInv q response (clientStep u s) := by
  obtain ⟨hnow, hwindow, hprogress⟩ := h
  obtain ⟨now, phase, window⟩ := s
  have hnext : Represents (now.update u).zone (now.update u).log := hnow.update u
  cases hprogress with
  | ready => exact ⟨hnext, hwindow, .ready⟩
  | @looked question rest first later hq hnone hlast =>
    have hlast' : (first :: (later ++ [now.update u])).getLast? = some (now.update u) := by
      rw [← List.cons_append, List.getLast?_concat]
    refine ⟨hnext, ?_, .looked hq hnone hlast'⟩
    intro m hm
    rcases List.mem_append.mp hm with hm | hm
    · exact hwindow m hm
    · rw [List.mem_singleton.mp hm]
      exact hnext
  | noQuestion hq => exact ⟨hnext, hwindow, .noQuestion hq⟩
  | answered hq hfound => exact ⟨hnext, hwindow, .answered hq hfound⟩
  | unanswered hq hnone hlast => exact ⟨hnext, hwindow, .unanswered hq hnone hlast⟩

theorem MachineInv.foldl (h : MachineInv q response s) (events : List Event) :
    MachineInv q response (events.foldl (machineStep q response) s) := by
  induction events generalizing s with
  | nil => exact h
  | cons event events ih =>
    apply ih
    cases event with
    | resolver => exact h.resolverStep
    | client u => exact h.clientStep u

theorem machineInv_run {m : Moment H} (hm : Represents m.zone m.log) (q : Message)
    (response : Buffer) (events : List Event) :
    MachineInv q response (machineRun q response events m) := by
  apply MachineInv.foldl
  refine ⟨hm, ?_, .ready⟩
  intro m' hm'
  cases hm'

end Invariant

/-! ### Consistency with one state of the zone -/

section Consistency

variable {log : RecordLog} {q : Message} {question : Question} {rest : List Question}

/-- A reply without records is told by its response: from the count and the response code. -/
theorem build_replyTo_eq_unanswered_iff (hrep : Representable q)
    (hq : q.questions = question :: rest) (nameExists : Bool) (response : Buffer) :
    build (replyTo log q) response = build (unanswered q question nameExists) response ↔
      recordsOf question.qname question.qtype log = [] ∧
        decide (Holds log question.qname) = nameExists := by
  have hasked : question ∈ q.questions := by simp [hq]
  have hun := representable_unanswered hrep hasked nameExists
  constructor
  · intro heq
    rw [build_ok_of_withinLimits (representable_iff.mp hun).1, build_eq_ok_iff] at heq
    obtain ⟨hlimits, hbytes⟩ := heq
    have hheader := countedHeader_eq_of_messageBytes_eq hbytes
    have hanswers : answersTo log q = recordsOf question.qname question.qtype log := by
      rw [answersTo, hq]
    have hnone : recordsOf question.qname question.qtype log = [] := by
      have hcount : (0 : UInt16) = UInt16.ofNat (answersTo log q).length :=
        congrArg Header.ancount hheader
      have hlength : (answersTo log q).length ≤ 65535 := hlimits.sections.answers
      have hzero := congrArg UInt16.toNat hcount
      rw [UInt16.toNat_ofNat_of_lt' (Nat.lt_of_le_of_lt hlength (by decide))] at hzero
      rw [← hanswers]
      exact List.length_eq_zero_iff.mp hzero.symm
    refine ⟨hnone, ?_⟩
    have hrcode : (if nameExists then RCODE_NOERROR else RCODE_NXDOMAIN) = rcodeFor log q :=
      congrArg Header.rcode hheader
    rw [rcodeFor, hq] at hrcode
    by_cases hname : Holds log question.qname
    · cases nameExists with
      | true => simp [hname]
      | false => simp [hname, RCODE_NOERROR, RCODE_NXDOMAIN] at hrcode
    · cases nameExists with
      | true => simp [hname, RCODE_NOERROR, RCODE_NXDOMAIN] at hrcode
      | false => simp [hname]
  · intro hanswer
    obtain ⟨hnone, hname⟩ := hanswer
    rw [replyTo_of_no_records hq hnone, hname]

end Consistency

/-- The result is what `resolve` alone answers in some state of the window. -/
def Consistent (query response : Buffer) (window : List (Moment H))
    (result : Status × Buffer) : Prop :=
  ∃ m ∈ window, resolve m.zone query response = result

/-- The name of the question exists at the first store call, or does not exist at the last, or
exists at some moment in between without records of the type asked for. -/
def Undisturbed (q : Message) (window : List (Moment H)) : Prop :=
  ∀ question rest, q.questions = question :: rest →
    (∃ first, window.head? = some first ∧ Holds first.log question.qname) ∨
    (∃ last, window.getLast? = some last ∧ ¬ Holds last.log question.qname) ∨
    ∃ m ∈ window, Holds m.log question.qname ∧
      recordsOf question.qname question.qtype m.log = []

omit [FiniteMap H] in
theorem undisturbed_iff {q : Message} {question : Question} {rest : List Question}
    (hq : q.questions = question :: rest) (window : List (Moment H)) :
    Undisturbed q window ↔
      (∃ first, window.head? = some first ∧ Holds first.log question.qname) ∨
      (∃ last, window.getLast? = some last ∧ ¬ Holds last.log question.qname) ∨
      ∃ m ∈ window, Holds m.log question.qname ∧
        recordsOf question.qname question.qtype m.log = [] := by
  unfold Undisturbed
  constructor
  · intro h
    exact h question rest hq
  · intro h question' rest' hq'
    rw [hq] at hq'
    cases hq'
    exact h

section Finished

variable {query response : Buffer} {out q : Message} {window : List (Moment H)}

theorem consistent_singleton {m : Moment H} (hm : Represents m.zone m.log)
    (hparse : parse query out = (.OK, q)) :
    Consistent query response [m] (build (replyTo m.log q) response) :=
  ⟨m, List.mem_singleton_self m, resolve_of_parse_ok hm hparse response⟩

/-- An answer without records belongs to the states that have none of the type and agree with the
last one about the name. -/
theorem consistent_unanswered_iff {question : Question} {rest : List Question} {last : Moment H}
    (hwindow : ∀ m ∈ window, Represents m.zone m.log) (hparse : parse query out = (.OK, q))
    (hq : q.questions = question :: rest) :
    Consistent query response window
        (build (unanswered q question (decide (Holds last.log question.qname))) response) ↔
      ∃ m ∈ window, recordsOf question.qname question.qtype m.log = [] ∧
        (Holds m.log question.qname ↔ Holds last.log question.qname) := by
  have hrep := representable_of_parse hparse
  unfold Consistent
  constructor
  · intro ⟨m, hm, heq⟩
    rw [resolve_of_parse_ok (hwindow m hm) hparse, build_replyTo_eq_unanswered_iff hrep hq,
      decide_eq_decide] at heq
    exact ⟨m, hm, heq⟩
  · intro ⟨m, hm, hsame⟩
    refine ⟨m, hm, ?_⟩
    rw [resolve_of_parse_ok (hwindow m hm) hparse, build_replyTo_eq_unanswered_iff hrep hq,
      decide_eq_decide]
    exact hsame

omit [FiniteMap H] in
/-- Which states agree with the last one, in terms of the first, the last and those between. -/
theorem exists_agreeing_iff {question : Question} {rest : List Question} {first last : Moment H}
    {later : List (Moment H)} (hq : q.questions = question :: rest)
    (hnone : recordsOf question.qname question.qtype first.log = [])
    (hlast : (first :: later).getLast? = some last) :
    (∃ m ∈ first :: later, recordsOf question.qname question.qtype m.log = [] ∧
      (Holds m.log question.qname ↔ Holds last.log question.qname)) ↔
    Undisturbed q (first :: later) := by
  rw [undisturbed_iff hq]
  by_cases hname : Holds last.log question.qname
  · constructor
    · intro ⟨m, hm, hempty, hsame⟩
      exact Or.inr (Or.inr ⟨m, hm, hsame.mpr hname, hempty⟩)
    · intro h
      rcases h with ⟨_, hhead, hfirst⟩ | ⟨_, hlast', hnot⟩ | ⟨m, hm, hm', hempty⟩
      · cases hhead
        exact ⟨first, List.mem_cons_self, hnone, iff_of_true hfirst hname⟩
      · rw [hlast] at hlast'
        cases hlast'
        exact absurd hname hnot
      · exact ⟨m, hm, hempty, iff_of_true hm' hname⟩
  · constructor
    · intro _
      exact Or.inr (Or.inl ⟨last, hlast, hname⟩)
    · intro _
      exact ⟨last, List.mem_of_getLast? hlast, recordsOf_eq_nil hname _, Iff.rfl⟩

end Finished

/-- In every interleaving, a finished resolution answers for one single state of the zone exactly
when its name was not created, with records of the type, between the two store calls. -/
theorem consistent_iff_undisturbed {zone : ZoneStore H} {log : RecordLog}
    (hzone : Reached zone log) {query : Buffer} {out q : Message}
    (hparse : parse query out = (.OK, q)) (response : Buffer) (events : List Event)
    {result : Status × Buffer}
    (hdone : (machineRun q response events ⟨zone, log⟩).phase = .done result) :
    Consistent query response (machineRun q response events ⟨zone, log⟩).window result ↔
      Undisturbed q (machineRun q response events ⟨zone, log⟩).window := by
  obtain ⟨_, hwindow, hprogress⟩ :=
    machineInv_run (m := ⟨zone, log⟩) hzone.represents q response events
  generalize (machineRun q response events ⟨zone, log⟩).now = now at hprogress
  generalize (machineRun q response events ⟨zone, log⟩).window = window at hwindow hprogress ⊢
  rw [hdone] at hprogress
  cases hprogress with
  | @noQuestion m hq =>
    have hreply : replyTo m.log q = formatError q := by
      simp [replyTo, answersTo, rcodeFor, hq, formatError, Message.blank]
    rw [← hreply]
    apply iff_of_true (consistent_singleton (hwindow m (List.mem_singleton_self m)) hparse)
    intro question rest hq'
    rw [hq] at hq'
    cases hq'
  | @answered question rest m hq hfound =>
    apply iff_of_true (consistent_singleton (hwindow m (List.mem_singleton_self m)) hparse)
    rw [undisturbed_iff hq]
    exact Or.inl ⟨m, rfl, holds_of_recordsOf_ne_nil hfound⟩
  | unanswered hq hnone hlast =>
    rw [consistent_unanswered_iff hwindow hparse hq]
    exact exists_agreeing_iff hq hnone hlast

def nodataBytes : Buffer :=
  [0xAB, 0xCD, 0x85, 0, 0, 1, 0, 0, 0, 0, 0, 0, 3, 119, 119, 119, 1, 65, 0, 0, 1, 0, 1]

/-- The host record is added after nothing was found and before the name is asked for. -/
def addBetweenCalls : List Event :=
  [.resolver, .client (.addRecord hostRecord), .resolver]

/-- The response says that the name exists without an address, which was never so: before the
update it did not exist, and since then it has one. -/
theorem addBetweenCalls_inconsistent :
    Reached (construct : ZoneStore AssocMap) [] ∧ (parse hostQuery Message.blank).1 = .OK ∧
      (machineRun (parse hostQuery Message.blank).2 [] addBetweenCalls
        ⟨(construct : ZoneStore AssocMap), []⟩).phase = .done (.OK, nodataBytes) ∧
      ¬ Consistent hostQuery [] (machineRun (parse hostQuery Message.blank).2 [] addBetweenCalls
        ⟨(construct : ZoneStore AssocMap), []⟩).window (.OK, nodataBytes) := by
  refine ⟨reached_updateAll [], congrArg Prod.fst hostQuery_accepted, by decide +kernel, ?_⟩
  unfold Consistent
  decide +kernel

def nxdomainBytes : Buffer :=
  [0xAB, 0xCD, 0x85, 3, 0, 1, 0, 0, 0, 0, 0, 0, 3, 119, 119, 119, 1, 65, 0, 0, 1, 0, 1]

/-- The only record of the name, of another type, is removed between the two calls. -/
def removeBetweenCalls : List Event :=
  [.resolver, .client (.removeRecord hostRecord.name 28), .resolver]

theorem removeBetweenCalls_undisturbed :
    Undisturbed (parse hostQuery Message.blank).2
      (machineRun (parse hostQuery Message.blank).2 [] removeBetweenCalls
        ⟨zoneOf { hostRecord with type := 28 }, [{ hostRecord with type := 28 }]⟩).window := by
  have hdone : (machineRun (parse hostQuery Message.blank).2 [] removeBetweenCalls
      ⟨zoneOf { hostRecord with type := 28 }, [{ hostRecord with type := 28 }]⟩).phase =
        .done (.OK, nxdomainBytes) := by decide +kernel
  apply (consistent_iff_undisturbed (reached_zoneOf _) hostQuery_accepted [] removeBetweenCalls
    hdone).mp
  unfold Consistent
  decide +kernel

end DnsPro.Resolve
