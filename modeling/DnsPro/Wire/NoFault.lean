import DnsPro.Machine
import DnsPro.Wire.RdataNames

/-!
# The parser has no fault

On a buffer of less than `2 ^ 63` bytes the checked 64-bit functions compute what the functions
over unbounded offsets compute, from every offset that the source can pass them: no check on an
access and no check on a sum ever fails. `Agrees` says so of a reader, and that the offset it
returns is again one that can be passed on.
-/

namespace DnsPro.Wire

open Packet Layout

set_option autoImplicit false

/-! ### Checked words -/

section Words
variable {b : Buffer} {x y : Machine.Size}

theorem toNat_size (hb : b.length < 2 ^ 63) : (Machine.size b).toNat = b.length := by
  apply UInt64.toNat_ofNat_of_lt'
  exact Nat.lt_of_lt_of_le hb (by decide)

/-- A sum that fits is a sum of numbers. -/
theorem sum_spec {n : Nat} (hy : y.toNat = n) (h : x.toNat + n < 2 ^ 64) :
    Machine.sum x y = .ok (x + y) ∧ (x + y).toNat = x.toNat + n := by
  subst hy
  refine ⟨if_pos h, ?_⟩
  rw [UInt64.toNat_add]
  exact Nat.mod_eq_of_lt h

theorem read_eq (h : x.toNat < b.length) :
    Machine.read b x = .ok (Parser.byteAt b x.toNat) := if_pos h

theorem gt_size_iff (hb : b.length < 2 ^ 63) : x > Machine.size b ↔ x.toNat > b.length := by
  rw [gt_iff_lt, UInt64.lt_iff_toNat_lt, toNat_size hb]

end Words

/-! ### Runs -/

section Runs
variable {α β : Type}

theorem lift_ok_bind (a : α) (f : α → Machine.Run β) :
    ((liftM (Except.ok a : Machine.Checked α) : Machine.Run α) >>= f) = f a := rfl

theorem ok_bind (a : α) (f : α → Machine.Checked β) : ((Except.ok a) >>= f) = f a := rfl

/-- A checked reader has no fault and returns what the unchecked one does, with an offset of at
most `n` on success. -/
def Agrees (n : Nat) (x : Machine.Run (α × Machine.Size)) (y : Except Status (α × Nat)) : Prop :=
  (∃ status, x = throw status ∧ y = .error status) ∨
  ∃ (a : α) (e : Machine.Size), x = pure (a, e) ∧ y = .ok (a, e.toNat) ∧ e.toNat ≤ n

theorem Agrees.bind {n : Nat} {x : Machine.Run (α × Machine.Size)} {y : Except Status (α × Nat)}
    {f : α × Machine.Size → Machine.Run (β × Machine.Size)} {g : α × Nat → Except Status (β × Nat)}
    (h : Agrees n x y)
    (hf : ∀ a (e : Machine.Size), e.toNat ≤ n → Agrees n (f (a, e)) (g (a, e.toNat))) :
    Agrees n (x >>= f) (y >>= g) := by
  rcases h with ⟨status, hx, hy⟩ | ⟨a, e, hx, hy, he⟩
  · rw [hx, hy]
    exact Or.inl ⟨status, rfl, rfl⟩
  · rw [hx, hy]
    exact hf a e he

end Runs

section Readers
variable {b : Buffer} {o : Machine.Size} (hb : b.length < 2 ^ 63)
include hb

/-- `buffer[offset + d]`. -/
theorem read_next {α : Type} {d : Machine.Size} {n : Nat} (hd : d.toNat = n)
    (hin : o.toNat + n < b.length) (f : UInt8 → Machine.Run α) :
    ((liftM (Machine.sum o d) : Machine.Run Machine.Size) >>= fun i =>
      (liftM (Machine.read b i) : Machine.Run UInt8) >>= f) =
      f (Parser.byteAt b (o.toNat + n)) := by
  obtain ⟨hsum, hadd⟩ := sum_spec hd (x := o) (by omega)
  rw [hsum, lift_ok_bind, read_eq (by omega), lift_ok_bind, hadd]

/-- A sum and a bounds check in front of a value that is read without a fault. -/
theorem agrees_guarded {α : Type} {n : Nat} {x : Machine.Size → Machine.Run (α × Machine.Size)}
    {v : α} {d : Machine.Size} (status : Status) (hd : d.toNat = n) (ho : o.toNat ≤ b.length)
    (hn : n < 2 ^ 32) (hx : o.toNat + n ≤ b.length → x (o + d) = pure (v, o + d)) :
    Agrees b.length
      ((liftM (Machine.sum o d) : Machine.Run Machine.Size) >>= fun next =>
        if next > Machine.size b then throw status else x next)
      (if o.toNat + n > b.length then .error status else .ok (v, o.toNat + n)) := by
  obtain ⟨hsum, hadd⟩ := sum_spec hd (x := o) (by omega)
  have hguard : o + d > Machine.size b ↔ o.toNat + n > b.length := by rw [gt_size_iff hb, hadd]
  rw [hsum, lift_ok_bind]
  by_cases hin : o.toNat + n > b.length
  · rw [if_pos (hguard.mpr hin), if_pos hin]
    exact Or.inl ⟨_, rfl, rfl⟩
  · rw [if_neg (mt hguard.mp hin), if_neg hin, hx (by omega)]
    exact Or.inr ⟨v, o + d, rfl, by rw [hadd], by omega⟩

theorem agrees_readU16 (ho : o.toNat ≤ b.length) :
    Agrees b.length (Machine.readU16 b o) (Parser.readU16 b o.toNat) := by
  apply agrees_guarded hb _ (n := 2) rfl ho (by decide)
  intro hin
  rw [read_eq (by omega), lift_ok_bind, read_next hb (n := 1) rfl (by omega)]

theorem agrees_readU32 (ho : o.toNat ≤ b.length) :
    Agrees b.length (Machine.readU32 b o) (Parser.readU32 b o.toNat) := by
  apply agrees_guarded hb _ (n := 4) rfl ho (by decide)
  intro hin
  rw [read_eq (by omega), lift_ok_bind, read_next hb (n := 1) rfl (by omega),
    read_next hb (n := 2) rfl (by omega), read_next hb (n := 3) rfl (by omega)]

theorem agrees_readFlags (ho : o.toNat ≤ b.length) :
    Agrees b.length (Machine.readFlags b o) (Parser.readFlags b o.toNat) := by
  apply agrees_guarded hb _ (n := 2) rfl ho (by decide)
  intro hin
  rw [read_eq (by omega), lift_ok_bind, read_next hb (n := 1) rfl (by omega)]

theorem agrees_parseHeader (ho : o.toNat ≤ b.length) :
    Agrees b.length (Machine.parseHeader b o) (Parser.parseHeader b o.toNat) :=
  (agrees_readU16 hb ho).bind fun _ _ ho => (agrees_readFlags hb ho).bind fun _ _ ho =>
    (agrees_readU16 hb ho).bind fun _ _ ho => (agrees_readU16 hb ho).bind fun _ _ ho =>
      (agrees_readU16 hb ho).bind fun _ _ ho => (agrees_readU16 hb ho).bind fun _ _ ho =>
        Or.inr ⟨_, _, rfl, rfl, ho⟩

end Readers

/-! ### Names -/

/-- What a turn of the checked loop is in the unchecked one. -/
def turnOf : Machine.Turn → Parser.Turn
  | .fail status => .fail status
  | .pointer target => .pointer target.toNat
  | .terminator => .terminator
  | .label bytes => .label bytes

theorem toNat_target (hi lo : UInt8) :
    ((hi &&& 0x3F).toUInt64 <<< 8 ||| lo.toUInt64).toNat =
      ((hi &&& 0x3F).toNat <<< 8) ||| lo.toNat := by
  have hlt := (hi &&& 0x3F).toNat_lt
  have hshift : (hi &&& 0x3F).toNat <<< 8 < 2 ^ 64 := by
    rw [Nat.shiftLeft_eq]
    omega
  rw [UInt64.toNat_or, UInt64.toNat_shiftLeft]
  simp only [UInt8.toNat_toUInt64]
  congr 1
  exact Nat.mod_eq_of_lt hshift

/-- A turn of the checked loop is taken without a fault, and is this one of the unchecked loop. -/
def TurnAgrees (x : Machine.Checked Machine.Turn) (y : Parser.Turn) : Prop :=
  ∃ turn, x = .ok turn ∧ turnOf turn = y

theorem TurnAgrees.pure (turn : Machine.Turn) : TurnAgrees (.ok turn) (turnOf turn) :=
  ⟨turn, rfl, rfl⟩

/-- The two loops branch alike. -/
theorem TurnAgrees.ite {p q : Prop} [Decidable p] [Decidable q]
    {x x' : Machine.Checked Machine.Turn} {y y' : Parser.Turn} (hpq : p ↔ q)
    (hpos : q → TurnAgrees x y) (hneg : ¬ q → TurnAgrees x' y') :
    TurnAgrees (if p then x else x') (if q then y else y') := by
  by_cases hq : q
  · rw [if_pos (hpq.mpr hq), if_pos hq]
    exact hpos hq
  · rw [if_neg (mt hpq.mp hq), if_neg hq]
    exact hneg hq

section Names
variable {b : Buffer} {c : Machine.Size} (hb : b.length < 2 ^ 63)
include hb

theorem readTurn_checked : TurnAgrees (Machine.readTurn b c) (Parser.readTurn b c.toNat) := by
  have hguard : c ≥ Machine.size b ↔ c.toNat ≥ b.length := by
    rw [ge_iff_le, UInt64.le_iff_toNat_le, toNat_size hb]
  apply TurnAgrees.ite hguard
  · intro _
    exact .pure (.fail .BUFFER_TOO_SMALL)
  intro hin
  obtain ⟨hsum1, hone⟩ := sum_spec (x := c) (y := 1) (n := 1) rfl (by omega)
  obtain ⟨hsum2, htwo⟩ := sum_spec (x := c) (y := 2) (n := 2) rfl (by omega)
  rw [read_eq (by omega), ok_bind]
  apply TurnAgrees.ite Iff.rfl
  · intro _
    rw [hsum2, ok_bind]
    apply TurnAgrees.ite (by rw [gt_size_iff hb, htwo])
    · intro _
      exact .pure (.fail .BUFFER_TOO_SMALL)
    intro hlast
    rw [hsum1, ok_bind, read_eq (by omega), ok_bind, hone]
    dsimp only
    rw [← toNat_target]
    apply TurnAgrees.ite UInt64.le_iff_toNat_le
    · intro _
      exact .pure (.fail .COMPRESSION_FORWARD_POINTER)
    · intro _
      exact .pure (.pointer _)
  intro _
  apply TurnAgrees.ite Iff.rfl
  · intro _
    exact .pure .terminator
  intro _
  apply TurnAgrees.ite Iff.rfl
  · intro _
    exact .pure (.fail .MALFORMED_NAME)
  intro _
  have hlength := (Parser.byteAt b c.toNat).toNat_lt
  obtain ⟨hsum, hadd⟩ := sum_spec (x := c + 1) (UInt8.toNat_toUInt64 (Parser.byteAt b c.toNat))
    (by omega)
  rw [hsum1, ok_bind]
  dsimp only
  rw [hsum, ok_bind]
  apply TurnAgrees.ite (by rw [gt_size_iff hb, hadd, hone])
  · intro _
    exact .pure (.fail .BUFFER_TOO_SMALL)
  · intro hlast
    have hcopy : Machine.copy b (c + 1) (Parser.byteAt b c.toNat).toUInt64 =
        .ok (Parser.bytesFrom b (c.toNat + 1) (Parser.byteAt b c.toNat).toNat) := by
      rw [Machine.copy, hone, UInt8.toNat_toUInt64, if_pos (by omega)]
    rw [hcopy, ok_bind]
    exact .pure (.label _)

end Names

/-- The locals of the two loops hold the same values. -/
structure SameWalk (w : Machine.Walk) (v : Parser.Walk) : Prop where
  cursor : w.cursor.toNat = v.cursor
  jumped : w.jumped = v.jumped
  resumeOffset : w.resumeOffset.toNat = v.resumeOffset
  labels : w.labels = v.labels

section Loop
variable {b : Buffer} {w : Machine.Walk} {v : Parser.Walk}

theorem SameWalk.jump (h : SameWalk w v) (hin : v.cursor + 2 < 2 ^ 64) (target : Machine.Size) :
    ∃ w', w.jump target = .ok w' ∧ SameWalk w' (v.jump target.toNat) := by
  have hcursor := h.cursor
  obtain ⟨hsum, hadd⟩ := sum_spec (x := w.cursor) (y := 2) (n := 2) rfl (by omega)
  unfold Machine.Walk.jump
  by_cases hjumped : w.jumped = true
  · rw [if_pos hjumped]
    refine ⟨_, rfl, rfl, rfl, ?_, h.labels⟩
    simp only [Parser.Walk.jump, ← h.jumped, hjumped, if_true, h.resumeOffset]
  · rw [if_neg hjumped, hsum]
    refine ⟨_, rfl, rfl, rfl, ?_, h.labels⟩
    simp only [Parser.Walk.jump, ← h.jumped, hjumped, Bool.false_eq_true, if_false, hadd, hcursor]

theorem SameWalk.push (h : SameWalk w v) (bytes : Label)
    (hin : v.cursor + 1 + bytes.length < 2 ^ 64) :
    ∃ w', w.push bytes = .ok w' ∧ SameWalk w' (v.push bytes) := by
  have hcursor := h.cursor
  have hlength : (UInt64.ofNat bytes.length).toNat = bytes.length :=
    UInt64.toNat_ofNat_of_lt' (Nat.lt_of_le_of_lt (by omega : _ ≤ 2 ^ 64 - 1) (by decide))
  obtain ⟨hsum1, hone⟩ := sum_spec (x := w.cursor) (y := 1) (n := 1) rfl (by omega)
  obtain ⟨hsum, hadd⟩ := sum_spec (x := w.cursor + 1) hlength (by omega)
  unfold Machine.Walk.push
  rw [hsum1, ok_bind, hsum, ok_bind]
  refine ⟨_, rfl, ?_, h.jumped, h.resumeOffset, ?_⟩
  · rw [hadd, hone, hcursor]
    rfl
  · simp only [Parser.Walk.push, h.labels]

theorem SameWalk.finish (h : SameWalk w v) (hin : v.cursor + 1 < 2 ^ 64) :
    ∃ w', w.finish = .ok w' ∧ SameWalk w' v.finish := by
  have hcursor := h.cursor
  obtain ⟨hsum, hadd⟩ := sum_spec (x := w.cursor) (y := 1) (n := 1) rfl (by omega)
  unfold Machine.Walk.finish
  rw [hsum, ok_bind]
  refine ⟨_, rfl, ?_, h.jumped, h.resumeOffset, h.labels⟩
  rw [hadd, hcursor]
  rfl

theorem parseNameLoop_checked (hb : b.length < 2 ^ 63) (n : Nat) (h : SameWalk w v) :
    ∃ w', Machine.parseNameLoop b n w = .ok ((Parser.parseNameLoop b n v).1, w') ∧
      SameWalk w' (Parser.parseNameLoop b n v).2 := by
  induction n generalizing w v with
  | zero => exact ⟨w, rfl, h⟩
  | succ n ih =>
    obtain ⟨turn, hturn, hsame⟩ := readTurn_checked (c := w.cursor) hb
    rw [h.cursor] at hsame
    rw [Machine.parseNameLoop, hturn, ok_bind, Parser.parseNameLoop, ← hsame]
    cases turn with
    | fail status => exact ⟨w, rfl, h⟩
    | pointer target =>
      obtain ⟨_, _, hs⟩ := readTurn_eq_pointer_iff.mp hsame.symm
      have hin := hs.end_le (by simp)
      simp only [List.length_cons, List.length_nil] at hin
      obtain ⟨w', hjump, hsame'⟩ := h.jump (by omega) target
      dsimp only [turnOf]
      rw [hjump, ok_bind]
      exact ih hsame'
    | terminator =>
      have hin := (readTurn_eq_terminator_iff.mp hsame.symm).end_le (by simp)
      simp only [List.length_cons, List.length_nil] at hin
      obtain ⟨w', hfinish, hsame'⟩ := h.finish (by omega)
      dsimp only [turnOf]
      rw [hfinish, ok_bind]
      exact ⟨w', rfl, hsame'⟩
    | label bytes =>
      obtain ⟨_, _, hs⟩ := readTurn_eq_label_iff.mp hsame.symm
      have hin := hs.end_le (by simp)
      rw [List.length_cons] at hin
      obtain ⟨w', hpush, hsame'⟩ := h.push bytes (by omega)
      dsimp only [turnOf]
      rw [hpush, ok_bind]
      exact ih hsame'

end Loop

section ParseName
variable {b : Buffer} {o : Machine.Size} (hb : b.length < 2 ^ 63)
include hb

/-- For every word as offset, `parseName` runs without a fault and returns what it returns over
unbounded offsets. -/
theorem parseName_checked (o : Machine.Size) (out : Name) :
    ∃ e : Machine.Size, Machine.parseName b o out =
        .ok ((Parser.parseName b o.toNat out).1, e, (Parser.parseName b o.toNat out).2.2) ∧
      e.toNat = (Parser.parseName b o.toNat out).2.1 := by
  have hsize := toNat_size hb
  obtain ⟨hsum, hadd⟩ := sum_spec (x := Machine.size b) (y := 1) (n := 1) rfl (by omega)
  have hstart : SameWalk ⟨o, false, 0, []⟩ (Parser.Walk.start o.toNat) := ⟨rfl, rfl, rfl, rfl⟩
  obtain ⟨w, hloop, hsame⟩ := parseNameLoop_checked hb (b.length + 1) hstart
  unfold Machine.parseName Parser.parseName
  rw [hsum, ok_bind, hadd, hsize, hloop, ok_bind]
  rcases hnat : Parser.parseNameLoop b (b.length + 1) (Parser.Walk.start o.toNat) with ⟨status, v⟩
  rw [hnat] at hsame
  have hend : (if w.jumped then w.resumeOffset else w.cursor).toNat = v.endOffset := by
    unfold Parser.Walk.endOffset
    rw [← hsame.jumped]
    by_cases hjumped : w.jumped = true
    · rw [if_pos hjumped, if_pos hjumped, hsame.resumeOffset]
    · rw [if_neg hjumped, if_neg hjumped, hsame.cursor]
  have hlabels : w.labels = v.labels := hsame.labels
  cases status with
  | OK =>
    refine ⟨_, ?_, hend⟩
    simp only [hlabels]
    rfl
  | _ =>
    refine ⟨o, ?_, rfl⟩
    simp only [hlabels]
    rfl

theorem agrees_readName (o : Machine.Size) :
    Agrees b.length (Machine.readName b o) (Parser.readName b o.toNat) := by
  obtain ⟨e, hchecked, he⟩ := parseName_checked hb o ⟨[]⟩
  unfold Machine.readName Parser.readName
  rw [hchecked, lift_ok_bind]
  rcases hparse : Parser.parseName b o.toNat ⟨[]⟩ with ⟨status, e', name⟩
  rw [hparse] at he
  cases status with
  | OK =>
    have hle := (parseName_eq_ok_iff.mp hparse).end_le
    exact Or.inr ⟨name, e, rfl, by rw [he], by rw [he]; exact hle⟩
  | _ => exact Or.inl ⟨_, rfl, rfl⟩

end ParseName

/-! ### Entries -/

section Entries
variable {b : Buffer} {o : Machine.Size} (hb : b.length < 2 ^ 63)
include hb

theorem agrees_parseQuestion (o : Machine.Size) :
    Agrees b.length (Machine.parseQuestion b o) (Parser.parseQuestion b o.toNat) :=
  (agrees_readName hb o).bind fun _ _ ho => (agrees_readU16 hb ho).bind fun _ _ ho =>
    (agrees_readU16 hb ho).bind fun _ _ ho => Or.inr ⟨_, _, rfl, rfl, ho⟩

theorem readRdata_eq {rdlength : UInt16} (hin : o.toNat + rdlength.toNat ≤ b.length) :
    Machine.readRdata b o rdlength = .ok (Parser.bytesFrom b o.toNat rdlength.toNat) := by
  have each : ∀ i ∈ List.range rdlength.toNat,
      (Machine.sum o (UInt64.ofNat i) >>= Machine.read b) =
        pure (Parser.byteAt b (o.toNat + i)) := by
    intro i hi
    have hlt := List.mem_range.mp hi
    have hlength := rdlength.toNat_lt
    obtain ⟨hsum, hadd⟩ := sum_spec (x := o) (UInt64.toNat_ofNat_of_lt' (by omega : i < 2 ^ 64))
      (by omega)
    rw [hsum, ok_bind, read_eq (by omega), hadd]
    rfl
  show List.mapM _ _ = pure (List.map _ _)
  rw [← List.mapM_pure]
  generalize List.range rdlength.toNat = is at each
  induction is with
  | nil => rfl
  | cons i is ih =>
    rw [List.mapM_cons, List.mapM_cons, each i List.mem_cons_self,
      ih fun j hj => each j (List.mem_cons_of_mem _ hj)]

theorem agrees_parseResourceRecord (o : Machine.Size) :
    Agrees b.length (Machine.parseResourceRecord b o) (Parser.parseResourceRecord b o.toNat) := by
  apply (agrees_readName hb o).bind
  intro name o ho
  apply (agrees_readU16 hb ho).bind
  intro type o ho
  apply (agrees_readU16 hb ho).bind
  intro rclass o ho
  apply (agrees_readU32 hb ho).bind
  intro ttl o ho
  apply (agrees_readU16 hb ho).bind
  intro rdlength o ho
  have hlength := rdlength.toNat_lt
  apply agrees_guarded hb _ (UInt16.toNat_toUInt64 rdlength) ho (by omega)
  intro hin
  rw [readRdata_eq hb hin, lift_ok_bind]

end Entries

/-! ### Sections and the whole packet -/

section Parse
variable {b : Buffer} {α : Type}

theorem parseSection_checked {P : Machine.Size → Machine.Run (α × Machine.Size)}
    {Q : Nat → Except Status (α × Nat)} (hagrees : ∀ o, Agrees b.length (P o) (Q o.toNat))
    (n : Nat) (o : Machine.Size) (out : List α) :
    ∃ status e as, Machine.parseSection P n o out = .ok (status, e, as) ∧
      Parser.parseSection Q n o.toNat out = (status, e.toNat, as) := by
  induction n generalizing o out with
  | zero => exact ⟨.OK, o, out, rfl, rfl⟩
  | succ n ih =>
    unfold Machine.parseSection Parser.parseSection
    rcases hagrees o with ⟨status, hx, hy⟩ | ⟨a, e, hx, hy, _⟩
    · rw [hx, hy]
      exact ⟨status, o, out, rfl, rfl⟩
    · rw [hx, hy]
      exact ih e (out ++ [a])

theorem parse_checked (hb : b.length < 2 ^ 63) (out : Message) :
    Machine.parse b out = .ok (Parser.parse b out) := by
  have start : Agrees b.length (Machine.parseHeader b 0) (Parser.parseHeader b 0) :=
    agrees_parseHeader hb (Nat.zero_le _)
  have questions := parseSection_checked (agrees_parseQuestion hb)
  have records := parseSection_checked (agrees_parseResourceRecord hb)
  unfold Machine.parse Parser.parse
  rcases start with ⟨status, hx, hy⟩ | ⟨header, o, hx, hy, _⟩
  · rw [hx, hy]
    rfl
  rw [hx, hy]
  obtain ⟨status, o₁, qs, hx₁, hy₁⟩ := questions header.qdcount.toNat o []
  show (Machine.parseSection _ _ _ _ >>= _) = _
  rw [hx₁, ok_bind]
  simp only [hy₁]
  split
  · rfl
  obtain ⟨status, o₂, an, hx₂, hy₂⟩ := records header.ancount.toNat o₁ []
  rw [hx₂, ok_bind]
  simp only [hy₂]
  split
  · rfl
  obtain ⟨status, o₃, ns, hx₃, hy₃⟩ := records header.nscount.toNat o₂ []
  rw [hx₃, ok_bind]
  simp only [hy₃]
  split
  · rfl
  obtain ⟨status, o₄, ar, hx₄, hy₄⟩ := records header.arcount.toNat o₃ []
  rw [hx₄, ok_bind]
  simp only [hy₄]
  rfl

end Parse

/-! ### Main result -/

/-- A reader called with `offset` has no fault, and on success it hands back a larger offset that
is still inside the buffer or its end. -/
def Advances {α : Type} (b : Buffer) (offset : Machine.Size)
    (x : Machine.Run (α × Machine.Size)) : Prop :=
  (∃ status, x = throw status) ∨
  ∃ a e, x = pure (a, e) ∧ offset < e ∧ e.toNat ≤ b.length

theorem Agrees.advances {α : Type} {b : Buffer} {o : Machine.Size}
    {x : Machine.Run (α × Machine.Size)} {y : Except Status (α × Nat)} (h : Agrees b.length x y)
    (hlt : ∀ a e, y = .ok (a, e) → o.toNat < e) : Advances b o x := by
  rcases h with ⟨status, hx, _⟩ | ⟨a, e, hx, hy, he⟩
  · exact Or.inl ⟨status, hx⟩
  · exact Or.inr ⟨a, e, hx, UInt64.lt_iff_toNat_lt.mpr (hlt a e.toNat hy), he⟩

section Main
variable {b : Buffer} (hb : b.length < 2 ^ 63)
include hb

theorem parseName_advances (offset : Machine.Size) (out : Name) :
    ∃ status e name, Machine.parseName b offset out = .ok (status, e, name) ∧
      Parser.parseName b offset.toNat out = (status, e.toNat, name) ∧
      (status = .OK → offset < e ∧ e.toNat ≤ b.length) := by
  obtain ⟨e, hchecked, he⟩ := parseName_checked hb offset out
  rcases hparse : Parser.parseName b offset.toNat out with ⟨status, e', name⟩
  rw [hparse] at hchecked he
  refine ⟨status, e, name, hchecked, by rw [he], fun hok => ?_⟩
  rw [hok] at hparse
  have henc := parseName_eq_ok_iff.mp hparse
  rw [UInt64.lt_iff_toNat_lt, he]
  exact ⟨henc.lt, henc.end_le⟩

theorem parser_no_fault :
    (∀ out, Machine.parse b out = .ok (Parser.parse b out)) ∧
    ∀ offset : Machine.Size,
      (∀ out, ∃ status e name, Machine.parseName b offset out = .ok (status, e, name) ∧
        Parser.parseName b offset.toNat out = (status, e.toNat, name) ∧
        (status = .OK → offset < e ∧ e.toNat ≤ b.length)) ∧
      Advances b offset (Machine.parseQuestion b offset) ∧
      Advances b offset (Machine.parseResourceRecord b offset) := by
  refine ⟨parse_checked hb, fun offset => ⟨parseName_advances hb offset, ?_, ?_⟩⟩
  · apply (agrees_parseQuestion hb offset).advances
    intro q e hok
    have hextent := (parseQuestion_eq_ok_iff.mp hok).extent
    omega
  · apply (agrees_parseResourceRecord hb offset).advances
    intro r e hok
    have hextent := EncRecord.extent (parseResourceRecord_eq_ok_iff.mp hok)
    omega

end Main

theorem parser_no_fault_alias :
    Machine.parse aliasAnswer Message.blank = .ok (.OK, aliasMessage) := by
  rw [(parser_no_fault (b := aliasAnswer) (by decide)).1]
  decide +kernel

end DnsPro.Wire
