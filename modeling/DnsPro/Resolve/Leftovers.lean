import DnsPro.Resolve.ResponseSpec
import DnsPro.Zone.Leftovers

/-!
# Responses after failed additions

An `addRecord` that ran out of memory may leave entries without records in the zone. No response
gains or loses a record by them; a name whose addition was abandoned may be reported to exist.
-/

namespace DnsPro.Resolve

open Packet Container ZoneStore RecordLog DnsPro.Parser DnsPro.Builder DnsPro.Resolver DnsPro.Wire

set_option autoImplicit false

variable {H : Type → Type → Type} [FiniteMap H]

/-- Zones with the same records answer alike, but for the names that only one of them knows. -/
theorem responseMessage_of_lookup {zone zone' : ZoneStore H}
    (hlookup : ∀ name type, zone.lookup name type = zone'.lookup name type) (q : Message) :
    responseMessage zone q = responseMessage zone' q ∨
      ∃ question rest, q.questions = question :: rest ∧
        zone.hasName question.qname ≠ zone'.hasName question.qname ∧
        responseMessage zone q = unanswered q question (zone.hasName question.qname) ∧
        responseMessage zone' q = unanswered q question (zone'.hasName question.qname) := by
  unfold responseMessage
  cases q.questions with
  | nil => exact Or.inl rfl
  | cons question rest =>
    simp only [hlookup]
    split
    · exact Or.inl rfl
    · by_cases hname : zone.hasName question.qname = zone'.hasName question.qname
      · rw [hname]
        exact Or.inl rfl
      · exact Or.inr ⟨question, rest, rfl, hname, rfl, rfl⟩

/-- After a run with failures every accepted query is answered as if the failed calls had never
been made, but that NODATA may stand for NXDOMAIN where an addition of the name was abandoned. -/
theorem failures_show_as_nodata {zone : ZoneStore H} {log : RecordLog} (hzone : Reached zone log)
    (calls : List (Update × (AllocationPoint → Bool))) {query : Buffer} {out q : Message}
    (hparse : parse query out = (.OK, q)) (response : Buffer) :
    resolve (attemptAll calls zone) query response =
        resolve (ZoneStore.updateAll (completed calls zone) zone) query response ∨
      ∃ question rest, q.questions = question :: rest ∧
        (∃ r ∈ abandoned calls zone [], keyOf r = canonicalize question.qname) ∧
        resolve (ZoneStore.updateAll (completed calls zone) zone) query response =
          build (unanswered q question false) response ∧
        resolve (attemptAll calls zone) query response =
          build (unanswered q question true) response := by
  have hbut := (hzone.represents.keeps.attemptAll calls).behaves
  have hclean := hzone.represents.updateAll (completed calls zone)
  simp only [resolve_eq_build _ hparse]
  have hlookup : ∀ name type, (attemptAll calls zone).lookup name type =
      (ZoneStore.updateAll (completed calls zone) zone).lookup name type := by
    intro name type
    rw [hbut.lookup, hclean.lookup]
  rcases responseMessage_of_lookup hlookup q with hsame | ⟨question, rest, hq, hname, hleft, hright⟩
  · rw [hsame]
    exact Or.inl rfl
  · have hunknown : (ZoneStore.updateAll (completed calls zone) zone).hasName question.qname =
        false := by
      by_contra hknown
      rw [Bool.not_eq_false] at hknown
      have hknown' := hbut.hasName question.qname ((hclean.hasName_iff question.qname).mp hknown)
      exact hname (hknown'.trans hknown.symm)
    have hknown : (attemptAll calls zone).hasName question.qname = true := by
      rw [hunknown] at hname
      exact Bool.not_eq_false _ |>.mp hname
    refine Or.inr ⟨question, rest, hq, ?_, ?_, ?_⟩
    · rcases hbut.of_hasName question.qname hknown with hholds | habandoned
      · rw [(hclean.hasName_iff question.qname).mpr hholds] at hunknown
        cases hunknown
      · exact habandoned
    · rw [hright, hunknown]
    · rw [hleft, hknown]

/-- A query for the mail exchanger of `a`. -/
def mailQuery : Buffer :=
  [0, 1, 0, 0, 0, 1, 0, 0, 0, 0, 0, 0, 1, 97, 0, 0, 15, 0, 1]

/-- After the one addition of `a` has failed, `a` is answered with NODATA. -/
theorem failures_show_as_nodata_mail :
    resolve (attemptAll failingRun (construct : ZoneStore AssocMap)) mailQuery [] =
      build (unanswered (parse mailQuery Message.blank).2 ⟨⟨[[97]]⟩, 15, 1⟩ true) [] := by
  have hzone : Reached (construct : ZoneStore AssocMap) [] := reached_updateAll []
  have hparse : parse mailQuery Message.blank = (.OK, (parse mailQuery Message.blank).2) :=
    Prod.ext (by decide +kernel) rfl
  have hquestions : (parse mailQuery Message.blank).2.questions = [⟨⟨[[97]]⟩, 15, 1⟩] := by
    decide +kernel
  rcases failures_show_as_nodata hzone failingRun hparse [] with hsame | ⟨_, _, hq, _, _, hnodata⟩
  · exact absurd hsame (by decide +kernel)
  · rw [hquestions] at hq
    cases hq
    exact hnodata

end DnsPro.Resolve
