import BtrfsPeek.Copy.Cat
import BtrfsPeek.Lib.Naming

/-!
# Names on the host

The names that the entries of one directory get. Each is safe (`SafeName`), with a
number after it or not, and no two are one after case folding
(`Copier.hosts_distinct`).
-/

namespace BtrfsPeek

open Effect

/-- A name that is one component on any host, and on Windows one that can be made. -/
structure SafeName (p : Platform) (t : Text) : Prop where
  nonempty : t ≠ []
  slash : '/' ∉ t
  backslash : '\\' ∉ t
  control : ∀ ch ∈ t, ¬ ch < ' '
  dots : ∃ ch ∈ t, ch ≠ '.'
  illegal : p.windows = true → ∀ ch ∈ t, windowsIllegal ch = false
  trailing : p.windows = true → t.getLast? ≠ some '.' ∧ t.getLast? ≠ some ' '
  device : p.windows = true → windowsReserved t = false

/-! ## Windows' devices -/

/-- The part of a name that a device's is compared with. -/
def deviceStem (t : Text) : Text := (t.takeWhile (· ≠ '.')).map Char.toUpper

/-- What may be in the stem of a device's name. -/
def deviceChar (ch : Char) : Bool := ch.isUpper || ch.isDigit || ch = '$'

theorem mem_digits {ch : Char} (h : ch.isDigit = true) : ch ∈ "0123456789".toList := by
  have hle : 48 ≤ ch.toNat ∧ ch.toNat ≤ 57 := by
    simpa [Char.isDigit, UInt32.le_iff_toNat_le] using h
  obtain ⟨n, hn, hch⟩ : ∃ n < 10, ch = Char.ofNat (48 + n) := by
    refine ⟨ch.toNat - 48, by omega, ?_⟩
    rw [show 48 + (ch.toNat - 48) = ch.toNat by omega, Char.ofNat_toNat]
  have hall : ∀ n < 10, Char.ofNat (48 + n) ∈ "0123456789".toList := by decide
  rw [hch]
  exact hall n hn

theorem ofList_mem_iff {t : Text} {names : List String} :
    String.ofList t ∈ names ↔ t ∈ names.map String.toList := by
  rw [List.mem_map]
  constructor
  · intro h
    exact ⟨_, h, String.toList_ofList⟩
  · rintro ⟨s, hs, rfl⟩
    rwa [String.ofList_toList]

theorem windowsReserved_iff (t : Text) : windowsReserved t = true ↔
    deviceStem t ∈ ["CON", "PRN", "AUX", "NUL", "CONIN$", "CONOUT$"].map String.toList ∨
      (deviceStem t).length = 4 ∧ (deviceStem t).take 3 ∈ ["COM", "LPT"].map String.toList ∧
        ((deviceStem t).drop 3).all Char.isDigit = true := by
  simp only [windowsReserved, deviceStem, Bool.or_eq_true, Bool.and_eq_true, decide_eq_true_eq,
    ofList_mem_iff, and_assoc]

theorem windowsReserved_congr {t u : Text} (h : deviceStem t = deviceStem u) :
    windowsReserved t = windowsReserved u := by
  rw [Bool.eq_iff_iff, windowsReserved_iff, windowsReserved_iff, h]

/-- No other character is in the stem of a device's name. -/
theorem deviceChar_of_reserved {t : Text} (h : windowsReserved t = true) {ch : Char}
    (hch : ch ∈ deviceStem t) : deviceChar ch = true := by
  rcases (windowsReserved_iff t).mp h with hword | ⟨-, hword, hdigits⟩
  · have hall : (["CON", "PRN", "AUX", "NUL", "CONIN$", "CONOUT$"].map String.toList).all
        (fun w => w.all deviceChar) = true := by decide
    exact List.all_eq_true.mp (List.all_eq_true.mp hall _ hword) ch hch
  · rw [← List.take_append_drop 3 (deviceStem t), List.mem_append] at hch
    rcases hch with hch | hch
    · have hall : (["COM", "LPT"].map String.toList).all (fun w => w.all deviceChar) = true := by decide
      exact List.all_eq_true.mp (List.all_eq_true.mp hall _ hword) ch hch
    · have hdigit := List.all_eq_true.mp hdigits ch hch
      simp [deviceChar, hdigit]

theorem not_reserved {t : Text} {ch : Char} (hch : ch ∈ deviceStem t) (hnot : deviceChar ch = false) :
    windowsReserved t = false := by
  by_contra h
  rw [deviceChar_of_reserved (by simpa using h) hch] at hnot
  exact absurd hnot (by decide)

/-! ## `hostName`, step by step -/

variable {p : Platform} {t : Text} {ch : Char}

/-- What a character becomes. -/
def hostChar (p : Platform) (ch : Char) : Char :=
  if ch = '/' || ch = '\\' || ch < ' ' || (p.windows && windowsIllegal ch) then '_' else ch

/-- A run of only dots becomes a name. -/
def guardDots (t : Text) : Text := if t = [] ∨ t.all (· = '.') then '_' :: t else t

def guardEnd (t : Text) : Text :=
  if t.getLast? = some '.' ∨ t.getLast? = some ' ' then t ++ ['_'] else t

def guardDevice (t : Text) : Text := if windowsReserved t then '_' :: t else t

theorem hostName_eq (p : Platform) (t : Text) : hostName p t =
    if p.windows then guardDevice (guardEnd (guardDots (t.map (hostChar p))))
    else guardDots (t.map (hostChar p)) := rfl

/-- No step brings in a character but `_`. -/
theorem mem_guards (h : ch ∈ hostName p t) : ch = '_' ∨ ch ∈ t.map (hostChar p) := by
  have hdots {u : Text} (h : ch ∈ guardDots u) : ch = '_' ∨ ch ∈ u := by
    unfold guardDots at h
    split_ifs at h
    · exact List.mem_cons.mp h
    · exact .inr h
  have hend {u : Text} (h : ch ∈ guardEnd u) : ch = '_' ∨ ch ∈ u := by
    unfold guardEnd at h
    split_ifs at h
    · rcases List.mem_append.mp h with h | h
      · exact .inr h
      · exact .inl (List.mem_singleton.mp h)
    · exact .inr h
  have hdevice {u : Text} (h : ch ∈ guardDevice u) : ch = '_' ∨ ch ∈ u := by
    unfold guardDevice at h
    split_ifs at h
    · exact List.mem_cons.mp h
    · exact .inr h
  rw [hostName_eq] at h
  split_ifs at h
  · exact (hdevice h).elim .inl fun h => (hend h).elim .inl hdots
  · exact hdots h

/-- A character that stands in a name on the host. -/
def Stands (p : Platform) (ch : Char) : Prop :=
  ch ≠ '/' ∧ ch ≠ '\\' ∧ ¬ ch < ' ' ∧ (p.windows = true → windowsIllegal ch = false)

theorem stands_underscore : Stands p '_' := ⟨by decide, by decide, by decide, fun _ => by decide⟩

theorem stands_hostChar (p : Platform) (ch : Char) : Stands p (hostChar p ch) := by
  unfold hostChar
  split_ifs with h
  · exact stands_underscore
  · simp only [Bool.or_eq_true, Bool.and_eq_true, decide_eq_true_eq, not_or, not_and] at h
    exact ⟨h.1.1.1, h.1.1.2, h.1.2, fun hw => by simpa using h.2 hw⟩

theorem hostChar_of_stands (h : Stands p ch) : hostChar p ch = ch := by
  obtain ⟨hslash, hback, hcontrol, hillegal⟩ := h
  unfold hostChar
  rw [if_neg]
  simp only [Bool.or_eq_true, Bool.and_eq_true, decide_eq_true_eq, not_or, not_and]
  exact ⟨⟨⟨hslash, hback⟩, hcontrol⟩, fun hw => by simp [hillegal hw]⟩

theorem stands_hostName (h : ch ∈ hostName p t) : Stands p ch := by
  rcases mem_guards h with rfl | h
  · exact stands_underscore
  · obtain ⟨ch', -, rfl⟩ := List.mem_map.mp h
    exact stands_hostChar p ch'

theorem dots_guardDots (t : Text) : ∃ ch ∈ guardDots t, ch ≠ '.' := by
  unfold guardDots
  split_ifs with h
  · exact ⟨'_', List.mem_cons_self, by decide⟩
  · have hall : t.all (· = '.') ≠ true := fun hall => h (.inr hall)
    simpa using hall

theorem subset_guardEnd (t : Text) : t ⊆ guardEnd t := by
  unfold guardEnd
  split_ifs
  · exact List.subset_append_left _ _
  · exact List.Subset.refl _

theorem subset_guardDevice (t : Text) : t ⊆ guardDevice t := by
  unfold guardDevice
  split_ifs
  · exact List.subset_cons_self _ _
  · exact List.Subset.refl _

theorem getLast?_guardEnd (t : Text) :
    (guardEnd t).getLast? ≠ some '.' ∧ (guardEnd t).getLast? ≠ some ' ' := by
  unfold guardEnd
  split_ifs with h
  · simp
  · exact not_or.mp h

theorem getLast?_guardDevice (h : t ≠ []) : (guardDevice t).getLast? = t.getLast? := by
  unfold guardDevice
  split_ifs
  · rw [List.getLast?_cons, List.getLast?_eq_some_getLast h, Option.getD_some]
  · rfl

theorem device_guardDevice (t : Text) : windowsReserved (guardDevice t) = false := by
  unfold guardDevice
  split_ifs with h
  · have hmem : '_' ∈ deviceStem ('_' :: t) := List.mem_cons_self
    exact not_reserved hmem (by decide)
  · simpa using h

theorem dots_hostName (p : Platform) (t : Text) : ∃ ch ∈ hostName p t, ch ≠ '.' := by
  obtain ⟨ch, hch, hne⟩ := dots_guardDots (t.map (hostChar p))
  rw [hostName_eq]
  split_ifs
  · exact ⟨ch, subset_guardDevice _ (subset_guardEnd _ hch), hne⟩
  · exact ⟨ch, hch, hne⟩

/-- Every name on the host is safe. -/
theorem safeName_hostName (p : Platform) (t : Text) : SafeName p (hostName p t) := by
  obtain ⟨ch, hch, hne⟩ := dots_hostName p t
  refine ⟨List.ne_nil_of_mem hch, fun h => (stands_hostName h).1 rfl, fun h => (stands_hostName h).2.1 rfl,
    fun ch h => (stands_hostName h).2.2.1, ⟨ch, hch, hne⟩,
    fun hw ch h => (stands_hostName h).2.2.2 hw, ?_, ?_⟩
  · intro hw
    obtain ⟨ch, hch, -⟩ := dots_guardDots (t.map (hostChar p))
    have hne := List.ne_nil_of_mem (subset_guardEnd _ hch)
    rw [hostName_eq, if_pos hw, getLast?_guardDevice hne]
    exact getLast?_guardEnd _
  · intro hw
    rw [hostName_eq, if_pos hw]
    exact device_guardDevice _

/-- A safe name is kept. -/
theorem hostName_of_safe (h : SafeName p t) : hostName p t = t := by
  have hmap : t.map (hostChar p) = t := by
    conv_rhs => rw [← List.map_id t]
    apply List.map_congr_left
    intro ch hch
    apply hostChar_of_stands
    exact ⟨fun he => h.slash (he ▸ hch), fun he => h.backslash (he ▸ hch), h.control ch hch,
      fun hw => h.illegal hw ch hch⟩
  have hdots : guardDots t = t := by
    obtain ⟨ch, hch, hne⟩ := h.dots
    unfold guardDots
    rw [if_neg]
    rintro (hnil | hall)
    · exact h.nonempty hnil
    · exact hne (by simpa using List.all_eq_true.mp hall ch hch)
  rw [hostName_eq, hmap, hdots]
  split_ifs with hw
  · have hend : guardEnd t = t := if_neg (not_or.mpr (h.trailing hw))
    rw [hend, guardDevice, h.device hw]
    rfl
  · rfl

theorem hostName_idem (p : Platform) (t : Text) : hostName p (hostName p t) = hostName p t :=
  hostName_of_safe (safeName_hostName p t)

/-! ## Numbered names -/

/-- The name that is tried when `n` were taken. -/
def candidate (base : Text) : (n : Nat) → Text
  | 0 => base
  | n + 1 => base ++ '~' :: (toString (n + 1)).toList

theorem digits_toString (n : Nat) : ∀ ch ∈ (toString n).toList, ch.isDigit = true := by
  intro ch hch
  rw [Nat.toString_eq_repr, Nat.toList_repr] at hch
  exact Nat.isDigit_of_mem_toDigits (by decide) (by decide) hch

theorem toString_ne_nil (n : Nat) : (toString n).toList ≠ [] := by
  rw [Nat.toString_eq_repr, Nat.toList_repr]
  exact Nat.toDigits_ne_nil

theorem toString_inj {m n : Nat} (h : (toString m).toList = (toString n).toList) : m = n := by
  rw [Nat.toString_eq_repr, Nat.toString_eq_repr, Nat.toList_repr, Nat.toList_repr] at h
  have hread := congrArg (fun ds => Nat.ofDigitChars 10 ds 0) h
  simpa using hread

theorem stands_digit (h : ch.isDigit = true) : Stands p ch := by
  have hall : ∀ ch ∈ "0123456789".toList, Stands ⟨true⟩ ch := by
    simp [Stands, windowsIllegal]
  obtain ⟨h₁, h₂, h₃, h₄⟩ := hall ch (mem_digits h)
  exact ⟨h₁, h₂, h₃, fun _ => h₄ rfl⟩

/-- A stem is not changed by what comes after its dot. -/
theorem deviceStem_append (u : Text) (h : '.' ∈ t) : deviceStem (t ++ u) = deviceStem t := by
  unfold deviceStem
  rw [List.takeWhile_append, if_neg]
  intro hlen
  have hself := (List.takeWhile_prefix _).eq_of_length hlen
  simpa using List.takeWhile_eq_self_iff.mp hself '.' h

theorem mem_deviceStem_append (u : Text) (h : '.' ∉ t) : '~' ∈ deviceStem (t ++ '~' :: u) := by
  have hall : ∀ ch ∈ t, decide (ch ≠ '.') = true := fun ch hch =>
    decide_eq_true fun he => h (he ▸ hch)
  unfold deviceStem
  rw [List.takeWhile_append_of_pos hall, List.map_append, List.mem_append]
  exact .inr List.mem_cons_self

/-- A number makes no safe name unsafe. -/
theorem SafeName.candidate (h : SafeName p t) (n : Nat) : SafeName p (candidate t n) := by
  cases n with
  | zero => exact h
  | succ n =>
    have hstands : ∀ ch ∈ t ++ '~' :: (toString (n + 1)).toList, Stands p ch := by
      intro ch hch
      rcases List.mem_append.mp hch with hch | hch
      · exact ⟨fun he => h.slash (he ▸ hch), fun he => h.backslash (he ▸ hch), h.control ch hch,
          fun hw => h.illegal hw ch hch⟩
      · rcases List.mem_cons.mp hch with rfl | hch
        · exact ⟨by decide, by decide, by decide, fun _ => by decide⟩
        · exact stands_digit (digits_toString _ ch hch)
    -- It ends with a digit, and `~` is in no device's name.
    have hlast : ∃ d, (t ++ '~' :: (toString (n + 1)).toList).getLast? = some d ∧ d.isDigit = true := by
      have hne := toString_ne_nil (n + 1)
      refine ⟨_, ?_, digits_toString (n + 1) _ (List.getLast_mem hne)⟩
      rw [List.getLast?_append_of_ne_nil _ (List.cons_ne_nil _ _), List.getLast?_cons,
        List.getLast?_eq_some_getLast hne, Option.getD_some]
    show SafeName p (t ++ '~' :: (toString (n + 1)).toList)
    refine ⟨by simp, fun hch => (hstands _ hch).1 rfl, fun hch => (hstands _ hch).2.1 rfl,
      fun ch hch => (hstands ch hch).2.2.1, ⟨'~', by simp, by decide⟩,
      fun hw ch hch => (hstands ch hch).2.2.2 hw, fun _ => ?_, fun hw => ?_⟩
    · obtain ⟨d, hd, hdigit⟩ := hlast
      rw [hd]
      constructor
      · rintro ⟨⟩
        exact absurd hdigit (by decide)
      · rintro ⟨⟩
        exact absurd hdigit (by decide)
    · by_cases hdot : '.' ∈ t
      · rw [windowsReserved_congr (deviceStem_append _ hdot)]
        exact h.device hw
      · exact not_reserved (mem_deviceStem_append _ hdot) (by decide)

/-! ## Case -/

/-- What the tables say of ASCII. -/
def Unicode.Ascii (U : Unicode) : Prop := ∀ ch : Char, ch.toNat < 128 → U.lower ch = [ch.toLower]

namespace Unicode

variable {U : Unicode}

/-- How much a text becomes does not depend on where it stands. -/
theorem length_lowerFrom (before before' t u : Text) :
    (U.lowerFrom before (t ++ u)).length =
      (U.lowerFrom before' t).length + (U.lowerFrom (before ++ t) u).length := by
  induction t generalizing before before' with
  | nil => simp [lowerFrom]
  | cons ch t ih =>
    rw [List.cons_append, lowerFrom, lowerFrom, List.length_append, List.length_append,
      ih (before ++ [ch]) (before' ++ [ch]), List.append_assoc, List.singleton_append]
    split_ifs <;> simp [Nat.add_assoc]

/-- The end of a text becomes what it does after the rest. -/
theorem lowerFrom_append (before t u : Text) :
    U.lowerFrom (before ++ t) u <:+ U.lowerFrom before (t ++ u) := by
  induction t generalizing before with
  | nil => simp
  | cons ch t ih =>
    rw [List.cons_append, lowerFrom]
    have h := ih (before ++ [ch])
    rw [List.append_assoc, List.singleton_append] at h
    exact h.trans (List.suffix_append _ _)

/-- Digits are their own lower case. -/
theorem lowerFrom_digits (hU : U.Ascii) : ∀ (before t : Text), (∀ ch ∈ t, ch.isDigit = true) →
    U.lowerFrom before t = t := by
  intro before t h
  induction t generalizing before with
  | nil => rfl
  | cons ch t ih =>
    have hdigit := h ch List.mem_cons_self
    have hall : ∀ ch ∈ "0123456789".toList, ch ≠ 'Σ' ∧ ch.toNat < 128 ∧ ch.toLower = ch := by simp
    obtain ⟨hne, hlt, hlower⟩ := hall ch (mem_digits hdigit)
    rw [lowerFrom, if_neg hne, hU ch hlt, hlower, ih _ fun ch hch => h ch (List.mem_cons_of_mem _ hch)]
    rfl

end Unicode

namespace Copier

variable {β η φ : Type} {c : Copier β η φ}

theorem suffix_fold (hU : c.platform.windows = true → c.unicode.Ascii) (base : Text) (n : Nat) :
    '~' :: (toString (n + 1)).toList <:+ c.fold (candidate base (n + 1)) := by
  unfold fold candidate
  split_ifs with hw
  · have hdigits := Unicode.lowerFrom_digits (hU hw) (base ++ ['~']) _ (digits_toString (n + 1))
    have h := Unicode.lowerFrom_append (U := c.unicode) [] base ('~' :: (toString (n + 1)).toList)
    rw [List.nil_append, Unicode.lowerFrom, if_neg (by decide), hU hw '~' (by decide), hdigits] at h
    exact h
  · exact List.suffix_append _ _

theorem length_fold_lt (hU : c.platform.windows = true → c.unicode.Ascii) (base : Text) (n : Nat) :
    (c.fold base).length < (c.fold (candidate base (n + 1))).length := by
  unfold fold candidate
  split_ifs with hw
  · have hlower : c.unicode.lower '~' = ['~'] := hU hw '~' (by decide)
    have h := Unicode.length_lowerFrom (U := c.unicode) [] [] base ('~' :: (toString (n + 1)).toList)
    rw [Unicode.toLowercase, Unicode.toLowercase, h, Unicode.lowerFrom, if_neg (by decide), hlower]
    simp
  · simp

/-- The candidates for a name differ after case folding. -/
theorem fold_candidate_injective (hU : c.platform.windows = true → c.unicode.Ascii) (base : Text) :
    Function.Injective fun n => c.fold (candidate base n) := by
  -- The number can be read off the end, because `~` is no digit.
  have hread {m n : Nat} (h : '~' :: (toString m).toList <:+ '~' :: (toString n).toList) : m = n := by
    rcases List.suffix_cons_iff.mp h with h | h
    · exact toString_inj (List.cons.inj h).2
    · have hmem := digits_toString n '~' (h.subset List.mem_cons_self)
      exact absurd hmem (by decide)
  intro m n h
  dsimp only at h
  cases m with
  | zero =>
    cases n with
    | zero => rfl
    | succ n => exact absurd (congrArg List.length h) (Nat.ne_of_lt (length_fold_lt hU base n))
  | succ m =>
    cases n with
    | zero => exact absurd (congrArg List.length h) (Nat.ne_of_gt (length_fold_lt hU base m))
    | succ n =>
      have hm := suffix_fold hU base m
      have hn := suffix_fold hU base n
      rw [h] at hm
      rcases List.suffix_or_suffix_of_suffix hm hn with h | h
      · exact hread h
      · exact (hread h).symm

/-! ## The names of a directory -/

/-- The loop goes on from one candidate to the next, up to one that is free. -/
theorem number_spec (taken : List Text) (base : Text) {n : Nat} (hn : c.fold (candidate base n) ∉ taken) :
    ∀ {fuel k : Nat}, k ≤ n → n < k + fuel →
      ∃ m, c.number taken base fuel (k + 1) (candidate base k) = candidate base m ∧ k ≤ m ∧ m ≤ n ∧
        c.fold (candidate base m) ∉ taken ∧ ∀ i, k ≤ i → i < m → c.fold (candidate base i) ∈ taken
  | 0, k, hk, hlt => by omega
  | fuel + 1, k, hk, hlt => by
    unfold number
    split_ifs with h
    · have hne : k ≠ n := fun he => hn (he ▸ h)
      obtain ⟨m, hm, hle, hmn, hfree, htaken⟩ :=
        number_spec taken base hn (show k + 1 ≤ n by omega) (show n < k + 1 + fuel by omega)
      refine ⟨m, hm, by omega, hmn, hfree, fun i hi hlt => ?_⟩
      rcases Nat.eq_or_lt_of_le hi with rfl | hi
      · exact h
      · exact htaken i hi hlt
    · exact ⟨k, rfl, Nat.le_refl k, hk, h, fun i hi hlt => by omega⟩

/-- An entry gets the first candidate that is free. -/
theorem chosenName_spec (hU : c.platform.windows = true → c.unicode.Ascii) (taken : List Text) (e : Entry) :
    ∃ n ≤ taken.length, c.chosenName taken e = candidate (hostName c.platform e.nameLossy) n ∧
      c.fold (candidate (hostName c.platform e.nameLossy) n) ∉ taken ∧
      ∀ m < n, c.fold (candidate (hostName c.platform e.nameLossy) m) ∈ taken := by
  obtain ⟨k, hk, hfree⟩ :=
    Naming.exists_free (fold_candidate_injective hU (hostName c.platform e.nameLossy)) taken
  obtain ⟨n, hn, -, hle, hfree, htaken⟩ :=
    number_spec taken _ hfree (Nat.zero_le k) (show k < 0 + (taken.length + 1) by omega)
  exact ⟨n, hle.trans hk, hn, hfree, fun m hm => htaken m (Nat.zero_le m) hm⟩

/-- It is not for want of fuel that the loop ends. -/
theorem number_of_free {taken : List Text} {base : Text} {n fuel : Nat}
    (hfree : c.fold (candidate base n) ∉ taken)
    (htaken : ∀ m < n, c.fold (candidate base m) ∈ taken) (h : n < fuel) :
    c.number taken base fuel 1 base = candidate base n := by
  obtain ⟨m, hm, -, hmn, hfree', -⟩ :=
    number_spec taken base hfree (Nat.zero_le n) (show n < 0 + fuel by omega)
  rcases Nat.eq_or_lt_of_le hmn with rfl | hlt
  · exact hm
  · exact absurd (htaken m hlt) hfree'

/-- A safe name that is free is kept. -/
theorem chosenName_of_safe {taken : List Text} {e : Entry} (h : SafeName c.platform e.nameLossy)
    (hfree : c.fold e.nameLossy ∉ taken) : c.chosenName taken e = e.nameLossy := by
  unfold chosenName number
  rw [hostName_of_safe h, if_neg hfree]

variable (c)

/-- The name that an entry is given, if it is copied. -/
def give (rel : Text) (taken : List Text) (e : Entry) : Option Text :=
  if c.excludes rel e.nameLossy then none else some (c.chosenName taken e)

/-- The entries of a directory that are copied, with their names on the host. -/
def hosts (rel : Text) (es : List Entry) : List (Entry × Text) :=
  Naming.given (c.give rel) c.fold [] es

/-- What is taken after these. -/
def takenBy (rel : Text) (es : List Entry) : List Text := Naming.takenBy (c.give rel) c.fold [] es

/-- What is done with an entry when `taken` are the folded names given so far. -/
def copyOne (recurse : Recurse β η) (dir : Loc) (src rel : Text) (dest : HostPath)
    (x : Entry × List Text) : CopyM β η Unit := do
  record (.visited dir rel x.1)
  let childSrc := src ++ '/' :: x.1.nameLossy
  match c.give rel x.2 x.1 with
  | none => report fun r => { r with excluded := r.excluded + 1 }
  | some host => do
    if c.renamed x.2 x.1 then
      warn s!"{String.ofList childSrc}: written as {c.fs.crates.debugStr host} (the original name is not representable here)"
    let childDest := dest.join c.platform host
    if childDest.parent ≠ some dest then
      report fun r =>
        { r with
          failures := r.failures + 1
          warnings := r.warnings ++
            [s!"{String.ofList childSrc}: refusing to write outside {dest.display}"] }
    else c.tryEntry recurse x.1 dir childSrc (childRel rel x.1.nameLossy) childDest

/-- The names are settled by the names alone: copying a directory's entries is copying
each under its own. -/
theorem copyEntries_eq (recurse : Recurse β η) (dir : Loc) (src rel : Text) (dest : HostPath) :
    ∀ (es : List Entry) (taken : List Text), c.copyEntries recurse dir src rel dest es taken =
      forEach (c.copyOne recurse dir src rel dest) (Naming.turns (c.give rel) c.fold taken es) := by
  intro es
  induction es with
  | nil => intro taken; rfl
  | cons e es ih =>
    intro taken
    rw [copyEntries, Naming.turns_cons, forEach, copyOne, Naming.takenAfter, give, bind_assoc]
    congr 1
    funext _
    dsimp only
    by_cases hex : c.excludes rel e.nameLossy = true
    · rw [if_pos hex, if_pos hex, ih]
    · rw [if_neg hex, if_neg hex]
      by_cases hren : c.renamed taken e = true <;>
        by_cases hpar : (dest.join c.platform (c.chosenName taken e)).parent = some dest <;>
          simp only [hren, hpar, ne_eq, not_true, not_false_eq_true, if_true, if_false,
            Bool.false_eq_true, bind_assoc, ih]

variable {c}

theorem give_eq_some {rel : Text} {taken : List Text} {e : Entry} {t : Text} :
    c.give rel taken e = some t ↔ c.excludes rel e.nameLossy = false ∧ c.chosenName taken e = t := by
  unfold give
  split_ifs with h
  · simp [h]
  · simp [h]

/-- What is taken are the folded names given. -/
theorem mem_takenBy {rel : Text} {es : List Entry} {t : Text} :
    t ∈ c.takenBy rel es ↔ ∃ x ∈ c.hosts rel es, c.fold x.2 = t := by
  rw [takenBy, Naming.mem_takenBy]
  simp [hosts]

/-- The names come one after another. -/
theorem hosts_append (rel : Text) (before : List Entry) (e : Entry) (after : List Entry)
    (he : c.excludes rel e.nameLossy = false) : ∃ later, c.hosts rel (before ++ e :: after) =
      c.hosts rel before ++ (e, c.chosenName (c.takenBy rel before) e) :: later := by
  rw [hosts, Naming.given_append]
  exact ⟨_, congrArg _ (Naming.given_of_some (give_eq_some.mpr ⟨he, rfl⟩))⟩

theorem safeName_number {base : Text} (hb : SafeName c.platform base) (taken : List Text) :
    ∀ (fuel n : Nat) {host : Text}, SafeName c.platform host →
      SafeName c.platform (c.number taken base fuel (n + 1) host)
  | 0, _, _, h => h
  | fuel + 1, n, host, h => by
    unfold number
    split_ifs
    · exact safeName_number hb taken fuel (n + 1) (hb.candidate (n + 1))
    · exact h

theorem safeName_chosenName (taken : List Text) (e : Entry) :
    SafeName c.platform (c.chosenName taken e) :=
  safeName_number (safeName_hostName _ _) taken _ 0 (safeName_hostName _ _)

theorem fold_chosenName (hU : c.platform.windows = true → c.unicode.Ascii) (taken : List Text)
    (e : Entry) : c.fold (c.chosenName taken e) ∉ taken := by
  obtain ⟨n, -, hn, hfree, -⟩ := chosenName_spec hU taken e
  rw [hn]
  exact hfree

/-- Whatever the entries of a directory are called, the names they are copied under are
safe, and different after case folding. The loop that numbers one ends, and a safe name
that is not taken stays as it is. -/
theorem hosts_distinct (hU : c.platform.windows = true → c.unicode.Ascii) (rel : Text)
    (es : List Entry) :
    (∀ recurse dir src dest, c.copyEntries recurse dir src rel dest es [] =
      forEach (c.copyOne recurse dir src rel dest) (Naming.turns (c.give rel) c.fold [] es)) ∧
    ((c.hosts rel es).map fun x => c.fold x.2).Nodup ∧
    (∀ x ∈ c.hosts rel es, SafeName c.platform x.2) ∧
    (∀ before e after, es = before ++ e :: after → c.excludes rel e.nameLossy = false →
      (∃ later, c.hosts rel es =
        c.hosts rel before ++ (e, c.chosenName (c.takenBy rel before) e) :: later) ∧
      (∃ n ≤ (c.takenBy rel before).length,
        c.fold (candidate (hostName c.platform e.nameLossy) n) ∉ c.takenBy rel before ∧
        (∀ m < n, c.fold (candidate (hostName c.platform e.nameLossy) m) ∈ c.takenBy rel before) ∧
        ∀ fuel, n < fuel → c.number (c.takenBy rel before) (hostName c.platform e.nameLossy) fuel 1
          (hostName c.platform e.nameLossy) = candidate (hostName c.platform e.nameLossy) n) ∧
      (SafeName c.platform e.nameLossy →
        (∀ x ∈ c.hosts rel before, c.fold x.2 ≠ c.fold e.nameLossy) →
        c.chosenName (c.takenBy rel before) e = e.nameLossy)) ∧
    ∀ t, hostName c.platform (hostName c.platform t) = hostName c.platform t := by
  have hnames {taken e t} (h : c.give rel taken e = some t) : c.chosenName taken e = t :=
    (give_eq_some.mp h).2
  refine ⟨fun recurse dir src dest => c.copyEntries_eq recurse dir src rel dest es [], ?_, ?_, ?_,
    hostName_idem c.platform⟩
  · refine (Naming.nodup_given fun taken e t h => ?_).1
    rw [← hnames h]
    exact fold_chosenName hU taken e
  · intro x hx
    obtain ⟨-, taken, h⟩ := Naming.exists_of_mem_given hx
    rw [← hnames h]
    exact safeName_chosenName taken x.1
  · rintro before e after rfl he
    refine ⟨hosts_append rel before e after he, ?_, ?_⟩
    · obtain ⟨n, hle, hn, hfree, htaken⟩ := chosenName_spec hU (c.takenBy rel before) e
      exact ⟨n, hle, hfree, htaken, fun fuel hfuel => number_of_free hfree htaken hfuel⟩
    · intro hsafe hnone
      apply chosenName_of_safe hsafe
      intro hin
      obtain ⟨x, hx, hfold⟩ := mem_takenBy.mp hin
      exact hnone x hx hfold

end Copier

namespace Image

/-- A copier on Windows. -/
def windowsCopier : Copier Unit (Bytes × Nat) HostPath := { oneFileCopier with platform := ⟨true⟩ }

/-- A device's name, and two that differ in case. -/
def alikeEntries : List Entry :=
  [⟨[0x6e, 0x75, 0x6c, 0x2e], ⟨FS_TREE_OBJECTID, 257⟩, 1, false⟩,
    ⟨[0x61], ⟨FS_TREE_OBJECTID, 258⟩, 1, false⟩, ⟨[0x41], ⟨FS_TREE_OBJECTID, 259⟩, 1, false⟩]

theorem ascii_windowsCopier : windowsCopier.unicode.Ascii := fun _ _ => rfl

/-- On Windows `nul.` is no name, and `A` is `a`. -/
theorem hosts_distinct_alike :
    (windowsCopier.hosts [] alikeEntries).map Prod.snd = ["_nul._".toList, "a".toList, "A~1".toList] ∧
    ((windowsCopier.hosts [] alikeEntries).map fun x => windowsCopier.fold x.2).Nodup ∧
    SafeName ⟨true⟩ "A~1".toList := by
  have hnames : (windowsCopier.hosts [] alikeEntries).map Prod.snd =
      ["_nul._".toList, "a".toList, "A~1".toList] := by decide +kernel
  obtain ⟨-, hnodup, hsafe, -⟩ :=
    Copier.hosts_distinct (c := windowsCopier) (fun _ => ascii_windowsCopier) [] alikeEntries
  refine ⟨hnames, hnodup, ?_⟩
  have hmem : "A~1".toList ∈ (windowsCopier.hosts [] alikeEntries).map Prod.snd := by
    rw [hnames]
    simp
  obtain ⟨x, hx, hname⟩ := List.mem_map.mp hmem
  rw [← hname]
  exact hsafe x hx

end Image

end BtrfsPeek
