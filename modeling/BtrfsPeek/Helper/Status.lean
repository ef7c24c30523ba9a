import BtrfsPeek.Helper.Callbacks
import BtrfsPeek.Lib.IndexMap
import BtrfsPeek.Lib.Words
import BtrfsPeek.Time

/-!
# The status file of updates

What a check for an update writes down, and what `helper status` reads of it, from
`helper/windows/updater.rs`. An error's text comes from outside; `status_reads_back` says
that it is read back on one line, and that nothing in it is taken for a field.
-/

namespace BtrfsPeek.Helper

open Words Decimal

/-- A text on one line: its words, with one space between them. -/
def oneLine (t : String) : String := String.ofList ([' '].intercalate (words isWhitespace t.toList))

/-- The lines written at the time `now`. -/
def statusText (now : Int) (r : Except IoError Update) : Option String := do
  let time ← isoTime now
  let text := s!"checked: {time}\n"
  match r with
  | .ok u => some (text ++ s!"outcome: {u.text}\n")
  -- One line per field: curl's errors can span several.
  | .error e => some (text ++ s!"outcome: failed\nerror: {oneLine e.text}\n")

/-- A line `key: value`. -/
def field (line : Text) : Option (String × String) :=
  (splitAtWord ": ".toList line).map fun (k, v) => (String.ofList k, String.ofList v)

def parseStatus (text : String) : IndexMap String String :=
  .ofList ((lines '\n' '\r' text.toList).filterMap field)

/-- A text with one space for each run of white space, and none at its ends. -/
def squeezed (t : String) : String :=
  String.ofList (collapse isWhitespace ' ' (Words.trim isWhitespace t.toList))

/-- What there is to say of a check at `time`. -/
def statusFields (time : String) : Except IoError Update → List (String × String)
  | .ok u => [("checked", time), ("outcome", u.text)]
  | .error e => [("checked", time), ("outcome", "failed"), ("error", squeezed e.text)]

/-! ## Values on one line -/

/-- Neither of the characters that end a line. -/
def Flat (t : Text) : Prop := '\n' ∉ t ∧ '\r' ∉ t

instance (t : Text) : Decidable (Flat t) := inferInstanceAs (Decidable (_ ∧ _))

theorem flat_append {s t : Text} : Flat (s ++ t) ↔ Flat s ∧ Flat t := by
  simp only [Flat, List.mem_append, not_or]
  tauto

theorem flat_cons {c : Char} {t : Text} : Flat (c :: t) ↔ c ≠ '\n' ∧ c ≠ '\r' ∧ Flat t := by
  simp only [Flat, List.mem_cons, not_or]
  tauto

theorem flat_toDigits (n : Nat) : Flat (Nat.toDigits 10 n) :=
  ⟨not_mem_toDigits (by decide), not_mem_toDigits (by decide)⟩

theorem flat_zeroPadded (w : Nat) (n : Int) : Flat (zeroPadded w n) := by
  have hpad (w : Nat) : Flat ((Nat.toDigits 10 n.natAbs).leftpad w '0') := by
    rw [List.leftpad, flat_append]
    exact ⟨by simp [Flat, List.mem_replicate], flat_toDigits _⟩
  unfold zeroPadded
  split_ifs
  · exact flat_cons.mpr ⟨by decide, by decide, hpad _⟩
  · exact hpad _

theorem flat_isoTime {now : Int} {time : String} (h : isoTime now = some time) : Flat time.toList := by
  obtain ⟨c, -, rfl⟩ := Option.map_eq_some_iff.mp h
  have hend : Flat ['Z'] := by decide
  simp [Calendar.Civil.text, flat_append, flat_cons, flat_zeroPadded, hend]

theorem flat_text (u : Update) : Flat u.text.toList := by
  have hversion (v : Version) : Flat (toString v).toList := by
    simp [Version.toList_toString, flat_append, flat_cons, flat_toDigits]
  cases u with
  | upToDate v =>
    show Flat ("up to date (" ++ toString v ++ ")").toList
    simp only [String.toList_append, flat_append]
    exact ⟨⟨by decide, hversion v⟩, by decide⟩
  | installed v =>
    rw [Update.toList_installed, flat_append, flat_append, flat_cons]
    exact ⟨by decide, hversion v, by decide, by decide, by decide⟩

theorem oneLine_eq (t : String) : oneLine t = squeezed t := by rw [oneLine, intercalate_words, squeezed]

theorem flat_squeezed (t : String) : Flat (squeezed t).toList := by
  have hnot {c : Char} (hc : isWhitespace c = true) (hne : c ≠ ' ') : c ∉ (squeezed t).toList := by
    rw [squeezed, String.toList_ofList]
    exact fun hmem => hne (eq_of_mem_collapse hc hmem)
  exact ⟨hnot (by decide) (by decide), hnot (by decide) (by decide)⟩

/-! ## Reading back -/

/-- The line of a field. -/
def statusLine (x : String × String) : Text := x.1.toList ++ (": ".toList ++ x.2.toList)

theorem field_statusLine {x : String × String} (h : ':' ∉ x.1.toList) : field (statusLine x) = some x := by
  have hsplit : splitAtWord ": ".toList (statusLine x) = some (x.1.toList, x.2.toList) :=
    splitAtWord_append h x.2.toList
  rw [field, hsplit]
  simp

/-- Fields are read back, if their keys and their values are of one line each. -/
theorem parseStatus_lines {xs : List (String × String)} (hkeys : (xs.map Prod.fst).Nodup)
    (hxs : ∀ x ∈ xs, ':' ∉ x.1.toList ∧ Flat x.1.toList ∧ Flat x.2.toList) {text : String}
    (ht : text.toList = xs.flatMap fun x => statusLine x ++ ['\n']) : (parseStatus text).entries = xs := by
  have hlines : ∀ xs : List (String × String),
      (∀ x ∈ xs, ':' ∉ x.1.toList ∧ Flat x.1.toList ∧ Flat x.2.toList) →
      (lines '\n' '\r' (xs.flatMap fun x => statusLine x ++ ['\n'])).filterMap field = xs := by
    intro xs
    induction xs with
    | nil => exact fun _ => rfl
    | cons x xs ih =>
      intro h
      obtain ⟨⟨hcolon, hkey, hvalue⟩, hxs⟩ := List.forall_mem_cons.mp h
      have hflat : Flat (statusLine x) := flat_append.mpr ⟨hkey, flat_append.mpr ⟨by decide, hvalue⟩⟩
      rw [List.flatMap_cons, List.append_assoc, List.singleton_append, lines_append hflat.1 hflat.2,
        List.filterMap_cons_some (field_statusLine hcolon), ih hxs]
  rw [parseStatus, ht, hlines xs hxs, IndexMap.entries_ofList hkeys]

theorem statusText_eq {now : Int} {time : String} (h : isoTime now = some time)
    (r : Except IoError Update) : ∃ text, statusText now r = some text ∧
      text.toList = (statusFields time r).flatMap fun x => statusLine x ++ ['\n'] := by
  cases r with
  | ok u =>
    refine ⟨"checked: " ++ time ++ "\n" ++ ("outcome: " ++ u.text ++ "\n"), ?_, ?_⟩
    · rw [statusText, h]
      rfl
    · simp [statusFields, statusLine]
  | error e =>
    refine ⟨"checked: " ++ time ++ "\n" ++ ("outcome: failed\nerror: " ++ oneLine e.text ++ "\n"), ?_, ?_⟩
    · rw [statusText, h]
      rfl
    · simp [statusFields, statusLine, oneLine_eq]

theorem flat_statusFields {time : String} (h : Flat time.toList) (r : Except IoError Update) :
    ∀ x ∈ statusFields time r, ':' ∉ x.1.toList ∧ Flat x.1.toList ∧ Flat x.2.toList := by
  cases r with
  | ok u => simp [statusFields, h, flat_text]; decide
  | error e => simp [statusFields, h, flat_squeezed]; decide

/-- What is written is read: the time, the outcome and, of an error, its text on one line,
whatever that text is. -/
theorem status_reads_back {now : Int} (h : IsI64 now) (r : Except IoError Update) :
    ∃ time text, isoTime now = some time ∧ statusText now r = some text ∧
      (parseStatus text).entries = statusFields time r := by
  have htime : isoTime now = some (String.ofList (civilOf now).text) := by
    rw [isoTime, civil_eq h]
    rfl
  obtain ⟨text, htext, hlines⟩ := statusText_eq htime r
  have hkeys : ((statusFields (String.ofList (civilOf now).text) r).map Prod.fst).Nodup := by
    cases r <;> simp [statusFields]
  exact ⟨_, text, htime, htext, parseStatus_lines hkeys (flat_statusFields (flat_isoTime htime) r) hlines⟩

/-- An error of several lines, one of which would be an outcome. -/
theorem status_reads_back_forged : ∃ text,
    statusText 0 (.error ⟨.other, "curl: (6)\r\n  no host \noutcome: none\n", .device⟩) = some text ∧
      (parseStatus text).entries = [("checked", "1970-01-01T00:00:00Z"), ("outcome", "failed"),
        ("error", "curl: (6) no host outcome: none")] := by
  obtain ⟨time, text, htime, htext, hread⟩ := status_reads_back (show IsI64 0 by decide)
    (.error ⟨.other, "curl: (6)\r\n  no host \noutcome: none\n", .device⟩)
  have hzero : isoTime 0 = some "1970-01-01T00:00:00Z" := by decide +kernel
  rw [hzero, Option.some.injEq] at htime
  refine ⟨text, htext, hread.trans ?_⟩
  rw [← htime]
  decide +kernel

end BtrfsPeek.Helper
