import DnsPro.Lib.Clients
import DnsPro.Resolve.Snapshot
import DnsPro.Zone.Locked

/-!
# Resolving while the zone is served to others

`Resolver::resolve` as a client of the locked stores. Between its two calls any other thread may
call any member, assignments included, and all of them interleave at every access. The response is
nevertheless the one for a single state of the zone, unless the name is created in between.
-/

namespace DnsPro.Resolve

open Packet Container ZoneStore DnsPro.Parser DnsPro.Builder DnsPro.Resolver Locking Locked

set_option autoImplicit false

variable {H : Type → Type → Type} [FiniteMap H] {ι τ : Type} [DecidableEq ι]

/-! ### The resolver as a client -/

/-- What `lookup` returned. -/
def recordsIn {S : Type} : Answer S → List ResourceRecord
  | .records rs => rs
  | _ => []

/-- What `hasName` returned. -/
def foundIn {S : Type} : Answer S → Bool
  | .found b => b
  | _ => false

/-- The answer to an accepted query, from one call of store `x` to the next. -/
def answerClient (x : ι) (queryMessage : Message) (response : Buffer) :
    Client (Member ι) (Answer (ZoneStore H)) (Status × Buffer) :=
  match queryMessage.questions with
  | [] => .done (build (formatError queryMessage) response)
  | question :: _ =>
    .ask (.lookup x question.qname question.qtype) fun answer =>
    let records := recordsIn answer
    if records ≠ [] then .done (build (answered queryMessage question records) response)
    else
      .ask (.hasName x question.qname) fun answer =>
      .done (build (unanswered queryMessage question (foundIn answer)) response)

/-- `resolve`, on store `x`. -/
def resolveClient (x : ι) (query response : Buffer) :
    Client (Member ι) (Answer (ZoneStore H)) (Status × Buffer) :=
  match parse query Message.blank with
  | (.OK, queryMessage) => answerClient x queryMessage response
  | (status, _) => .done (status, response)

variable (H) in
/-- A member called at once. -/
def atOnce (m : Member ι) (stores : ι → ZoneStore H) :
    Answer (ZoneStore H) × (ι → ZoneStore H) :=
  (call H m).body.run stores

theorem atOnce_lookup (x : ι) (name : Name) (type : UInt16) (stores : ι → ZoneStore H) :
    atOnce H (.lookup x name type) stores = (.records ((stores x).lookup name type), stores) :=
  run_lookup stores x name type

theorem atOnce_hasName (x : ι) (name : Name) (stores : ι → ZoneStore H) :
    atOnce H (.hasName x name) stores = (.found ((stores x).hasName name), stores) := rfl

omit [FiniteMap H] [DecidableEq ι] in
theorem resolveClient_of_accepted {x : ι} {query : Buffer} {q : Message}
    (h : parse query Message.blank = (.OK, q)) (response : Buffer) :
    resolveClient (H := H) x query response = answerClient x q response := by
  rw [resolveClient, h]

omit [FiniteMap H] [DecidableEq ι] in
theorem resolveClient_of_rejected {x : ι} {query : Buffer}
    (h : (parse query Message.blank).1 ≠ .OK) (response : Buffer) :
    resolveClient (H := H) x query response =
      .done ((parse query Message.blank).1, response) := by
  unfold resolveClient
  split
  · rename_i heq
    rw [heq] at h
    exact absurd rfl h
  · rename_i heq
    rw [heq]

theorem answerClient_alone (x : ι) (q : Message) (response : Buffer) (stores : ι → ZoneStore H) :
    (answerClient x q response).alone (atOnce H) stores =
      (build (responseMessage (stores x) q) response, stores) := by
  unfold answerClient responseMessage
  cases q.questions with
  | nil => rfl
  | cons question rest =>
    simp only [Client.alone, atOnce_lookup, recordsIn]
    by_cases hfound : (stores x).lookup question.qname question.qtype = []
    · simp only [hfound, ne_eq, not_true_eq_false, if_false, Client.alone, atOnce_hasName, foundIn]
    · simp only [hfound, ne_eq, not_false_eq_true, if_true, Client.alone]

/-- With nobody else around, the client is `resolve`. -/
theorem resolveClient_alone (x : ι) (query response : Buffer) (stores : ι → ZoneStore H) :
    (resolveClient x query response).alone (atOnce H) stores =
      (resolve (stores x) query response, stores) := by
  by_cases hok : (parse query Message.blank).1 = .OK
  · have hparse : parse query Message.blank = (.OK, (parse query Message.blank).2) :=
      Prod.ext hok rfl
    rw [resolveClient_of_accepted hparse, answerClient_alone, resolve_eq_build _ hparse]
  · rw [resolveClient_of_rejected hok, resolve_of_parse_fail _ hok]
    rfl

/-! ### Names that are not created -/

/-- The call may make a name exist in store `x` that did not exist there. -/
def Creates (x : ι) (name : Name) : Member ι → Prop
  | .addRecord y record => y = x ∧ canonicalize record.name = canonicalize name
  | .copyAssign y other | .moveAssign y other => y = x ∧ y ≠ other
  | _ => False

/-- Stores with their logs, where a name does not exist in one of them. -/
def Missing (x : ι) (name : Name) (stores : ι → ZoneStore H) : Prop :=
  ∃ logs : ι → RecordLog, (∀ y, Represents (stores y) (logs y)) ∧ ¬ RecordLog.Holds (logs x) name

omit [DecidableEq ι] in
theorem missing_iff {stores : ι → ZoneStore H} {logs : ι → RecordLog} {x : ι} {name : Name}
    (h : ∀ y, Represents (stores y) (logs y)) :
    Missing x name stores ↔ (stores x).hasName name = false := by
  constructor
  · intro ⟨logs', h', hmissing⟩
    rw [(h' x).hasName_eq, decide_eq_false_iff_not]
    exact hmissing
  · intro hfalse
    rw [(h x).hasName_eq, decide_eq_false_iff_not] at hfalse
    exact ⟨logs, h, hfalse⟩

theorem not_holds_nil (name : Name) : ¬ RecordLog.Holds [] name := by
  rintro ⟨r, hr, _⟩
  exact absurd hr List.not_mem_nil

theorem not_holds_onLogs {x : ι} {name : Name} {m : Member ι} {logs : ι → RecordLog}
    (hm : ¬ Creates x name m) (h : ¬ RecordLog.Holds (logs x) name) :
    ¬ RecordLog.Holds ((onLogs m logs).2 x) name := by
  have updated : ∀ (y : ι) (log : RecordLog), (y = x → ¬ RecordLog.Holds log name) →
      ¬ RecordLog.Holds (Function.update logs y log x) name := by
    intro y log hlog
    by_cases hy : y = x
    · rw [hy, Function.update_self]
      exact hlog hy
    · rwa [Function.update_of_ne (Ne.symm hy)]
  cases m with
  | addRecord y record =>
    apply updated
    rintro rfl ⟨r, hr, hkey⟩
    rcases List.mem_append.mp hr with hr | hr
    · exact h ⟨r, hr, hkey⟩
    · rw [List.mem_singleton.mp hr] at hkey
      exact hm ⟨rfl, hkey⟩
  | removeRecord y n type =>
    apply updated
    rintro rfl ⟨r, hr, hkey⟩
    exact h ⟨r, List.mem_of_mem_filter hr, hkey⟩
  | clear y => exact updated y [] fun _ => not_holds_nil name
  | copyAssign y other =>
    apply updated
    rintro rfl
    have hsame : y = other := by
      by_contra hne
      exact hm ⟨rfl, hne⟩
    rwa [← hsame]
  | moveConstruct other => exact updated other [] fun _ => not_holds_nil name
  | moveAssign y other =>
    show ¬ RecordLog.Holds ((if y = other then logs
      else Function.update (Function.update logs y (logs other)) other []) x) name
    split
    · exact h
    · rename_i hne
      by_cases hx : x = other
      · rw [hx, Function.update_self]
        exact not_holds_nil name
      · rw [Function.update_of_ne hx]
        apply updated
        intro hy
        exact absurd ⟨hy, hne⟩ hm
  | lookup | contains | hasName | recordCount | copyConstruct => exact h

theorem missing_atOnce {x : ι} {name : Name} (m : Member ι) (stores : ι → ZoneStore H)
    (hm : ¬ Creates x name m) (h : Missing x name stores) :
    Missing x name (atOnce H m stores).2 := by
  obtain ⟨logs, hlogs, hmissing⟩ := h
  exact ⟨_, (call_refines hlogs m).2, not_holds_onLogs hm hmissing⟩

/-! ### One state of the zone -/

section Segments
variable {stores now : ι → ZoneStore H} {logs : ι → RecordLog}
  {calls : List (τ × Member ι × Answer (ZoneStore H))} {x : ι} {name : Name}

theorem represents_of_sequential (hstores : ∀ y, Represents (stores y) (logs y))
    (h : Sequential (atOnce H) stores calls now) :
    ∃ logs' : ι → RecordLog, ∀ y, Represents (now y) (logs' y) := by
  induction h with
  | nil => exact ⟨logs, hstores⟩
  | snoc i m _ ih =>
    obtain ⟨logs', hlogs'⟩ := ih
    exact ⟨_, (call_refines hlogs' m).2⟩

/-- A name that exists after calls none of which creates it existed before them. -/
theorem hasName_before (hstores : ∀ y, Represents (stores y) (logs y))
    (h : Sequential (atOnce H) stores calls now) (hquiet : ∀ e ∈ calls, ¬ Creates x name e.2.1)
    (hnow : (now x).hasName name = true) : (stores x).hasName name = true := by
  by_contra hbefore
  have hmissing := (missing_iff hstores).mpr (Bool.eq_false_of_not_eq_true hbefore)
  have hkept := Sequential.keeps (P := Missing x name) (K := fun m => ¬ Creates x name m)
    missing_atOnce h hquiet hmissing
  obtain ⟨logs', hlogs'⟩ := represents_of_sequential hstores h
  rw [(missing_iff hlogs').mp hkept] at hnow
  cases hnow

omit [DecidableEq ι] in
theorem lookup_of_missing (hstores : ∀ y, Represents (stores y) (logs y))
    (h : (stores x).hasName name = false) (type : UInt16) : (stores x).lookup name type = [] := by
  rw [(hstores x).hasName_eq, decide_eq_false_iff_not] at h
  rw [(hstores x).lookup]
  exact RecordLog.recordsOf_eq_nil h type

/-- Either a name is as it will be after the calls, or it does not exist then and there is nothing
to find under it, or one of the calls creates it. -/
theorem name_over_calls (hstores : ∀ y, Represents (stores y) (logs y))
    (h : Sequential (atOnce H) stores calls now) (x : ι) (name : Name) (type : UInt16) :
    (stores x).hasName name = (now x).hasName name ∨
    ((now x).hasName name = false ∧ (now x).lookup name type = []) ∨
    ((now x).hasName name = true ∧ ∃ e ∈ calls, Creates x name e.2.1) := by
  by_cases hname : (now x).hasName name = true
  · by_cases hquiet : ∀ e ∈ calls, ¬ Creates x name e.2.1
    · exact Or.inl ((hasName_before hstores h hquiet hname).trans hname.symm)
    · refine Or.inr (Or.inr ⟨hname, ?_⟩)
      by_contra hnone
      exact hquiet fun e he hcreates => hnone ⟨e, he, hcreates⟩
  · have hmissing := Bool.eq_false_of_not_eq_true hname
    obtain ⟨_, hnow⟩ := represents_of_sequential hstores h
    exact Or.inr (Or.inl ⟨hmissing, lookup_of_missing hnow hmissing type⟩)

/-- The calls between the two of a resolution create its name, and it answers that the name exists
without records of the type. -/
def CreatedMeanwhile (x : ι) (q : Message) (response : Buffer)
    (calls : List (τ × Member ι × Answer (ZoneStore H))) (result : Status × Buffer) : Prop :=
  ∃ question ∈ q.questions.head?, result = build (unanswered q question true) response ∧
    ∃ e ∈ calls, Creates x question.qname e.2.1

/-- The moment is that of the first call if it finds records, or if the name exists at the second
one and was not created in between; otherwise it is that of the second call. -/
theorem answer_has_moment (hstores : ∀ y, Represents (stores y) (logs y)) {i : τ} {q : Message}
    {response : Buffer} {result : Status × Buffer} (h : Sequential (atOnce H) stores calls now)
    (hplays : (answerClient x q response).Plays i calls result) :
    (∃ passed left moment, calls = passed ++ left ∧ Sequential (atOnce H) stores passed moment ∧
      result = build (responseMessage (moment x) q) response) ∨
    CreatedMeanwhile x q response calls result := by
  unfold answerClient at hplays
  unfold responseMessage
  cases hq : q.questions with
  | nil =>
    simp only [hq] at hplays
    exact Or.inl ⟨[], calls, stores, rfl, .nil, hplays.of_done⟩
  | cons question rest =>
    simp only [hq] at hplays
    obtain ⟨waited, answer, others, rfl, hlooking⟩ := hplays.of_ask
    obtain ⟨first, hwaited, hcalls⟩ := h.split
    obtain ⟨_, hlook, hothers⟩ := hcalls.split_cons
    rw [atOnce_lookup] at hlook
    cases hlook
    by_cases hfound : (first x).lookup question.qname question.qtype = []
    · simp only [recordsIn, hfound, ne_eq, not_true_eq_false, if_false] at hlooking
      obtain ⟨between, answer, rest', rfl, hasking⟩ := hlooking.of_ask
      obtain ⟨second, hbetween, hcalls'⟩ := hothers.split
      obtain ⟨_, hask, _⟩ := hcalls'.split_cons
      rw [atOnce_hasName] at hask
      cases hask
      have hresult := hasking.of_done
      simp only [foundIn] at hresult
      obtain ⟨_, hfirst⟩ := represents_of_sequential hstores hwaited
      rcases name_over_calls hfirst hbetween x question.qname question.qtype with
        hsame | ⟨_, hnone⟩ | ⟨hname, e, he, hcreates⟩
      · refine Or.inl ⟨waited, _, first, rfl, hwaited, ?_⟩
        simp only [hfound, hsame, ne_eq, not_true_eq_false, if_false]
        exact hresult
      · have hlookup := Sequential.snoc i (.lookup x question.qname question.qtype) hwaited
        rw [atOnce_lookup] at hlookup
        refine Or.inl ⟨_, (i, .hasName x question.qname, .found ((second x).hasName
          question.qname)) :: rest', second, ?_, hlookup.append hbetween, ?_⟩
        · simp only [List.append_assoc, List.cons_append, List.nil_append]
        · simp only [hnone, ne_eq, not_true_eq_false, if_false]
          exact hresult
      · rw [hname] at hresult
        exact Or.inr ⟨question, by simp [hq], hresult, e, by simp [he], hcreates⟩
    · simp only [recordsIn, ne_eq, hfound, not_false_eq_true, if_true] at hlooking
      refine Or.inl ⟨waited, _, first, rfl, hwaited, ?_⟩
      simp only [hfound, ne_eq, not_false_eq_true, if_true]
      exact hlooking.of_done

end Segments

section Results
variable [DecidableEq τ]

/-- A resolution between the calls of any number of threads answers as `resolve` alone would at one
moment between its beginning and its end; or another thread creates the name meanwhile, and the
response is that it exists without records of the type. Calls are taken in the order in which they
begin to give back their locks, which for each of them is after it began and before it returns. -/
theorem resolution_has_moment {spurious : Prop} {stores : ι → ZoneStore H} {logs : ι → RecordLog}
    (hstores : ∀ y, Reached (stores y) (logs y))
    {s : State τ (Member ι) ι (ZoneStore H) (Answer (ZoneStore H))}
    (h : Reaches (call H) spurious (start stores) s) {i : τ} {x : ι} {query response : Buffer}
    {before during after : List (τ × Member ι × Answer (ZoneStore H))}
    (hreleased : s.released = before ++ during ++ after) {result : Status × Buffer}
    (hplays : (resolveClient x query response).Plays i during result) :
    (∃ passed left, during = passed ++ left ∧ ∃ moment : ι → ZoneStore H,
      Sequential (atOnce H) stores (before ++ passed) moment ∧
        result = resolve (moment x) query response) ∨
    ((parse query Message.blank).1 = .OK ∧
      CreatedMeanwhile x (parse query Message.blank).2 response during result) := by
  obtain ⟨objects, hlegal⟩ := h.legal
  have hall : Sequential (atOnce H) stores s.released objects := hlegal.sequential
  rw [hreleased] at hall
  obtain ⟨_, hupto, _⟩ := hall.split
  obtain ⟨opening, hbefore, hduring⟩ := hupto.split
  obtain ⟨_, hopening⟩ := represents_of_sequential (fun y => (hstores y).represents) hbefore
  by_cases hok : (parse query Message.blank).1 = .OK
  · have hparse : parse query Message.blank = (.OK, (parse query Message.blank).2) :=
      Prod.ext hok rfl
    rw [resolveClient_of_accepted hparse] at hplays
    rcases answer_has_moment hopening hduring hplays with
      ⟨passed, left, moment, hduring', hpassed, hresult⟩ | hcreated
    · refine Or.inl ⟨passed, left, hduring', moment, hbefore.append hpassed, ?_⟩
      rw [resolve_eq_build _ hparse, hresult]
    · exact Or.inr ⟨hok, hcreated⟩
  · rw [resolveClient_of_rejected hok] at hplays
    refine Or.inl ⟨[], during, rfl, opening, ?_, ?_⟩
    · rwa [List.append_nil]
    · rw [resolve_of_parse_fail _ hok, hplays.of_done]

/-- Another thread adds a record of a different name between the two calls. -/
def addedMeanwhile : List (Bool × Member Unit × Answer (ZoneStore AssocMap)) :=
  [(true, .lookup () ⟨[[119, 119, 119], [65]]⟩ 1, .records []),
    (false, .addRecord () mailRecord, .done),
    (true, .hasName () ⟨[[119, 119, 119], [65]]⟩, .found false)]

theorem addedMeanwhile_plays :
    (resolveClient () hostQuery []).Plays true addedMeanwhile (.OK, nxdomainBytes) := by
  have hanswer : build (unanswered (parse hostQuery Message.blank).2
      ⟨⟨[[119, 119, 119], [65]]⟩, 1, 1⟩ false) [] = (.OK, nxdomainBytes) := by decide +kernel
  rw [resolveClient_of_accepted hostQuery_accepted, answerClient, hostQuery_questions, ← hanswer]
  exact .ask (.wait Bool.false_ne_true (.ask (.done _)))

theorem addedMeanwhile_happens :
    ∃ now, Sequential (atOnce AssocMap) (fun _ => construct) addedMeanwhile now :=
  ⟨_, .snoc true (Member.hasName () ⟨[[119, 119, 119], [65]]⟩)
    (.snoc false (Member.addRecord () mailRecord)
      (.snoc true (Member.lookup () ⟨[[119, 119, 119], [65]]⟩ 1) .nil))⟩

theorem resolution_has_moment_host :
    (∃ passed left, addedMeanwhile = passed ++ left ∧ ∃ moment : Unit → ZoneStore AssocMap,
      Sequential (atOnce AssocMap) (fun _ => construct) ([] ++ passed) moment ∧
        (.OK, nxdomainBytes) = resolve (moment ()) hostQuery []) ∨
    ((parse hostQuery Message.blank).1 = .OK ∧
      CreatedMeanwhile () (parse hostQuery Message.blank).2 [] addedMeanwhile
        (.OK, nxdomainBytes)) := by
  obtain ⟨now, hnow⟩ := addedMeanwhile_happens
  have hempty : ∀ _ : Unit, Reached (construct : ZoneStore AssocMap) [] :=
    fun _ => reached_updateAll []
  have hreleased : addedMeanwhile = [] ++ addedMeanwhile ++ [] := by simp
  exact resolution_has_moment hempty (Sequential.reached False hnow) hreleased
    addedMeanwhile_plays

end Results

end DnsPro.Resolve
