import DnsPro.Wire.Trace

/-!
# What the builder writes, in terms of the parser

A message has many encodings: any name may be replaced by a pointer, and anything may stand behind
the last record. The builder writes the one encoding in which neither occurs.
-/

namespace DnsPro.Wire

open Packet DnsPro.Parser DnsPro.Builder Layout

set_option autoImplicit false

section Inline
variable {b : Buffer} {o e : Nat} {ls : List Label}

/-- A name that is read inline leaves `jumped` as it was. -/
theorem InlineName.ends (h : InlineName b o ls e) {w : Walk} (hw : w.cursor = o) :
    ∃ w', Ends b w .OK w' ∧ w'.jumped = w.jumped := by
  induction h generalizing w with
  | root hs =>
    subst hw
    exact ⟨w.finish, .terminator (readTurn_eq_terminator_iff.mpr hs), rfl⟩
  | @label _ _ l _ h1 h63 hs _ ih =>
    subst hw
    have hturn := readTurn_eq_label_iff.mpr ⟨h1, h63, hs⟩
    obtain ⟨w', hends, hjumped⟩ := ih (w := w.push l) rfl
    exact ⟨w', .label hturn hends, hjumped⟩

theorem InlineName.jumps_eq_false (h : InlineName b o ls e) : jumps b o = false := by
  obtain ⟨w', hends, hjumped⟩ := h.ends (w := Walk.start o) rfl
  rw [jumps, hends.parseNameLoop_budget]
  exact hjumped

end Inline

section Messages
variable {b : Buffer} {m : Message} {e : Nat}

theorem pointerFree_messageBytes (h : Representable m) : PointerFree (messageBytes m) := by
  apply (forall_nameOffsets_iff (P := fun s => jumps (messageBytes m) s = false)
    (encodes_messageBytes h)).mpr
  apply (inline_messageBytes h).imp
  · intro i ls j hname
    exact ⟨hname.encName, hname.jumps_eq_false⟩
  · exact fun _ _ => id

theorem consumed_messageBytes (h : Representable m) :
    consumed (messageBytes m) = (messageBytes m).length :=
  consumed_of_encodes (encodes_messageBytes h)

/-- Nothing but the message, and no pointer in it: then it is what the builder writes. -/
theorem eq_messageBytes (h : Encodes b m e) (hfree : PointerFree b)
    (hwhole : consumed b = b.length) : b = messageBytes m := by
  have hinline : MessageAt (InlineName b) b m e :=
    ((forall_nameOffsets_iff h).mp hfree).imp
      (fun _ _ _ hname => hname.1.inline hname.2) fun _ _ => id
  rw [← take_of_inline hinline, ← consumed_of_encodes h, hwhole, List.take_length]

theorem messageBytes_countedHeader (m : Message) :
    messageBytes { m with header := countedHeader m } = messageBytes m := rfl

end Messages

/-- Of all packets that parse to the message, the counts set, what the builder writes is the only
one without pointers and without anything behind the message. -/
theorem built_iff_pointerFree {m : Message} {out bytes : Buffer}
    (hbuild : build m out = (.OK, bytes)) (hnames : ∀ n ∈ names m, NonemptyLabels n)
    (b : Buffer) (blank : Message) :
    b = bytes ↔ PointerFree b ∧ consumed b = b.length ∧
      ∃ m', parse b blank = (.OK, m') ∧
        m'.dropOffsets = { m with header := countedHeader m }.dropOffsets := by
  obtain ⟨hlimits, rfl⟩ := build_eq_ok_iff.mp hbuild
  have hrep := representable_iff.mpr ⟨hlimits, hnames⟩
  constructor
  · rintro rfl
    exact ⟨pointerFree_messageBytes hrep, consumed_messageBytes hrep, relocate m,
      parse_messageBytes hrep blank, relocate_dropOffsets m⟩
  · rintro ⟨hfree, hwhole, m', hparse, hsame⟩
    have henc := encodes_of_parse_consumed hparse
    calc b = messageBytes m' := eq_messageBytes henc hfree hwhole
      _ = messageBytes m'.dropOffsets := (messageBytes_dropOffsets m').symm
      _ = messageBytes { m with header := countedHeader m } := by
        rw [hsame, messageBytes_dropOffsets]
      _ = messageBytes m := messageBytes_countedHeader m

/-- Of the packets with the two questions of `compressedQuery`, `plainQuery` is the one built. -/
theorem built_iff_pointerFree_plain :
    PointerFree plainQuery ∧ consumed plainQuery = plainQuery.length ∧
      ∃ m', parse plainQuery Message.blank = (.OK, m') ∧
        m'.dropOffsets = (parse compressedQuery Message.blank).2.dropOffsets := by
  have hbuild : build (parse compressedQuery Message.blank).2 [] = (.OK, plainQuery) := by
    decide +kernel
  have hnames : ∀ n ∈ names (parse compressedQuery Message.blank).2, NonemptyLabels n := by
    unfold NonemptyLabels
    decide +kernel
  obtain ⟨_, henc⟩ := encodes_of_parse compressedQuery_accepted
  have hbuilt := (built_iff_pointerFree hbuild hnames plainQuery Message.blank).mp rfl
  rwa [countedHeader_of_counted henc.counted] at hbuilt

end DnsPro.Wire
