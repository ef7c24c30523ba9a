import BtrfsPeek.Copy.Calls
import BtrfsPeek.Copy.Limits
import BtrfsPeek.Copy.Reads

/-!
# The name of a file that is copied alone

A path is read twice: `resolve` takes both separators and drops what is empty or `.`,
and `copy` takes what follows the last `/` for the name. `copy_keeps_name_iff` says for
which spellings of a path the two agree on the name on the host: where nothing but the
name follows the last `/`, and where the separator that is left there becomes a `_` that
`hostName` adds to the name itself.
-/

namespace BtrfsPeek

open Effect

/-- What follows the last `/`. -/
def afterSlash (path : Text) : Text := path.rtakeWhile (· ≠ '/')

/-! ## The last component -/

namespace Fs

def isSeparator (ch : Char) : Bool := ch = '/' ∨ ch = '\\'

theorem pathParts_append_sep {ch : Char} (h : isSeparator ch = true) (a b : Text) :
    pathParts (a ++ ch :: b) = pathParts a ++ pathParts b := by
  show (List.splitOnP isSeparator (a ++ ch :: b)).filter _ = _
  rw [List.splitOnP_append_cons _ _ h, List.filter_append]
  rfl

theorem pathParts_plain {t : Text} (h : ∀ ch ∈ t, isSeparator ch = false) :
    pathParts t = if t = [] ∨ t = ['.'] then [] else [t] := by
  have hsplit : t.splitOnP (fun c => c = '/' ∨ c = '\\') = [t] := List.splitOnP_eq_singleton h
  rw [pathParts, hsplit]
  split_ifs with ht
  · rcases ht with rfl | rfl <;> rfl
  · rw [not_or] at ht
    simp [ht]

/-- The last separator of a path that has any. -/
theorem exists_last_separator (t : Text) : (∀ ch ∈ t, isSeparator ch = false) ∨
    ∃ a ch b, t = a ++ ch :: b ∧ isSeparator ch = true ∧ ∀ x ∈ b, isSeparator x = false := by
  induction t with
  | nil => simp
  | cons x t ih =>
    rcases ih with h | ⟨a, ch, b, rfl, hch, hb⟩
    · cases hx : isSeparator x with
      | true => exact .inr ⟨[], x, t, rfl, hx, h⟩
      | false =>
        left
        simpa [hx] using h
    · exact .inr ⟨x :: a, ch, b, rfl, hch, hb⟩

/-- The last component with what is around it: separators, and nothing that is looked up
after it. -/
structure Around (t a n b : Text) : Prop where
  eq : t = a ++ n ++ b
  before : a = [] ∨ ∃ a' ch, a = a' ++ [ch] ∧ isSeparator ch = true
  after : b = [] ∨ ∃ ch b', b = ch :: b' ∧ isSeparator ch = true
  rest : pathParts b = []
  plain : ∀ ch ∈ n, isSeparator ch = false
  nonempty : n ≠ []

theorem exists_around {t n : Text} (h : (pathParts t).getLast? = some n) : ∃ a b, Around t a n b := by
  induction hk : t.length using Nat.strongRecOn generalizing t with
  | ind k ih =>
    rcases exists_last_separator t with hp | ⟨l, ch, r, rfl, hch, hr⟩
    · rw [pathParts_plain hp] at h
      split_ifs at h with ht
      · simp at h
      · rw [not_or] at ht
        obtain rfl : t = n := by simpa using h
        exact ⟨[], [], by simp, .inl rfl, .inl rfl, pathParts_nil, hp, ht.1⟩
    · rw [pathParts_append_sep hch, pathParts_plain hr] at h
      split_ifs at h with ht
      · rw [List.append_nil] at h
        have hlt : l.length < k := by
          rw [← hk, List.length_append]
          simp
        obtain ⟨a, b, hab⟩ := ih l.length hlt h rfl
        refine ⟨a, b ++ ch :: r, by rw [hab.eq]; simp, hab.before, .inr ?_, ?_, hab.plain, hab.nonempty⟩
        · rcases hab.after with rfl | ⟨c, b', rfl, hc⟩
          · exact ⟨ch, r, rfl, hch⟩
          · exact ⟨c, b' ++ ch :: r, rfl, hc⟩
        · rw [pathParts_append_sep hch, hab.rest, pathParts_plain hr, if_pos ht]
          rfl
      · rw [not_or] at ht
        obtain rfl : r = n := by simpa using h
        exact ⟨l ++ [ch], [], by simp, .inr ⟨l, ch, rfl, hch⟩, .inl rfl, pathParts_nil, hr, ht.1⟩

theorem exists_afterSlash (path : Text) :
    path = afterSlash path ∨ ∃ a, path = a ++ '/' :: afterSlash path := by
  induction path using List.reverseRecOn with
  | nil => exact .inl rfl
  | append_singleton l x ih =>
    unfold afterSlash at ih ⊢
    by_cases hx : x = '/'
    · rw [List.rtakeWhile_concat_neg _ _ _ (by simpa using hx), hx]
      exact .inr ⟨l, rfl⟩
    · rw [List.rtakeWhile_concat_pos _ _ _ (by simpa using hx)]
      rcases ih with ih | ⟨a, ih⟩
      · left
        rw [← ih]
      · right
        refine ⟨a, ?_⟩
        rw [← List.cons_append, ← List.append_assoc, ← ih]

/-- What follows the last `/`, if anything is looked up in it, ends with the last component
of the path. -/
theorem last_afterSlash {path n : Text} (h : (pathParts path).getLast? = some n) :
    pathParts (afterSlash path) = [] ∨ (pathParts (afterSlash path)).getLast? = some n := by
  rcases exists_afterSlash path with heq | ⟨a, heq⟩
  · right
    rw [← heq]
    exact h
  · rw [heq, pathParts_append] at h
    by_cases hp : pathParts (afterSlash path) = []
    · exact .inl hp
    · right
      rw [List.getLast?_append_of_ne_nil _ hp] at h
      exact h

theorem slash_not_mem_afterSlash (path : Text) : '/' ∉ afterSlash path := by
  intro h
  have hne := List.mem_rtakeWhile_imp h
  exact absurd hne (by decide)

end Fs

/-! ## The name on the host -/

variable {p : Platform} {t n : Text}

/-- Whether `hostName` puts a `_` in front of a name, -/
def fronted (p : Platform) (n : Text) : Bool :=
  n.all (· = '.') || (p.windows && windowsReserved (guardEnd (n.map (hostChar p))))

/-- and whether it puts one behind it. -/
def ended (p : Platform) (n : Text) : Bool :=
  p.windows && (n.getLast? = some '.' || n.getLast? = some ' ')

def underscore (b : Bool) : Text := if b then ['_'] else []

theorem hostChar_eq_iff {ch x : Char} (hx : x ≠ '_') (hs : Stands p x) : hostChar p ch = x ↔ ch = x := by
  constructor
  · intro h
    unfold hostChar at h
    split_ifs at h
    · exact absurd h.symm hx
    · exact h
  · rintro rfl
    exact hostChar_of_stands hs

theorem stands_dot : Stands p '.' := ⟨by decide, by decide, by decide, fun _ => by decide⟩

theorem stands_space : Stands p ' ' := ⟨by decide, by decide, by decide, fun _ => by decide⟩

theorem hostChar_backslash : hostChar p '\\' = '_' := by
  unfold hostChar
  rw [if_pos (by simp)]

theorem all_dots_map (n : Text) : (n.map (hostChar p)).all (· = '.') = n.all (· = '.') := by
  rw [List.all_map]
  congr 1
  funext ch
  have hdot : hostChar p ch = '.' ↔ ch = '.' := hostChar_eq_iff (by decide) stands_dot
  simp [hdot]

theorem getLast_map_iff {x : Char} (hx : x ≠ '_') (hs : Stands p x) :
    (n.map (hostChar p)).getLast? = some x ↔ n.getLast? = some x := by
  rw [List.getLast?_map, Option.map_eq_some_iff]
  simp [hostChar_eq_iff hx hs]

theorem guardEnd_map (hp : p.windows = true) (n : Text) :
    guardEnd (n.map (hostChar p)) = n.map (hostChar p) ++ underscore (ended p n) := by
  unfold guardEnd ended underscore
  simp only [getLast_map_iff (p := p) (n := n) (by decide) stands_dot,
    getLast_map_iff (p := p) (n := n) (by decide) stands_space, hp, Bool.true_and, Bool.or_eq_true,
    decide_eq_true_eq]
  split_ifs <;> simp

theorem not_reserved_underscore (t : Text) : windowsReserved ('_' :: t) = false := by
  have hmem : '_' ∈ deviceStem ('_' :: t) := List.mem_cons_self
  exact not_reserved hmem (by decide)

/-- `hostName` writes over characters, and adds a `_` at most at either end. -/
theorem hostName_spelled (hn : n ≠ []) : hostName p n =
    underscore (fronted p n) ++ n.map (hostChar p) ++ underscore (ended p n) := by
  have hmap : n.map (hostChar p) ≠ [] := by simpa using hn
  rw [hostName_eq]
  cases hdots : n.all (· = '.') with
  | true =>
    have hguard : guardDots (n.map (hostChar p)) = '_' :: n.map (hostChar p) :=
      if_pos (.inr (by rw [all_dots_map, hdots]))
    have hfront : fronted p n = true := by simp [fronted, hdots]
    rw [hguard, hfront]
    split_ifs with hp
    · have hlast : ('_' :: n.map (hostChar p)).getLast? = (n.map (hostChar p)).getLast? :=
        List.getLast?_cons_of_ne_nil hmap
      have hend : guardEnd ('_' :: n.map (hostChar p)) =
          '_' :: (n.map (hostChar p) ++ underscore (ended p n)) := by
        rw [← guardEnd_map hp]
        unfold guardEnd
        rw [hlast]
        split_ifs <;> rfl
      rw [hend, guardDevice, not_reserved_underscore]
      rfl
    · simp [underscore, ended, hp]
  | false =>
    have hguard : guardDots (n.map (hostChar p)) = n.map (hostChar p) := by
      apply if_neg
      rintro (h | h)
      · exact hmap h
      · rw [all_dots_map, hdots] at h
        exact absurd h (by decide)
    rw [hguard]
    split_ifs with hp
    · have hfront : fronted p n = windowsReserved (guardEnd (n.map (hostChar p))) := by
        simp [fronted, hdots, hp]
      rw [hfront, guardDevice, guardEnd_map hp, List.append_assoc]
      cases windowsReserved (n.map (hostChar p) ++ underscore (ended p n)) <;> rfl
    · simp [underscore, ended, hp, fronted, hdots]

theorem not_fronted_of_backslash (t : Text) : fronted p ('\\' :: t) = false := by
  have hdots : ('\\' :: t).all (· = '.') = false := by simp
  rw [fronted, hdots, Bool.false_or, Bool.and_eq_false_iff]
  cases hp : p.windows with
  | false => exact .inl rfl
  | true =>
    right
    rw [guardEnd_map hp, List.map_cons, hostChar_backslash, List.cons_append]
    exact not_reserved_underscore _

/-- A name that begins with `_` on the host gets none in front. -/
theorem head_of_fronted (hn : n ≠ []) (h : fronted p n = true) :
    (n.map (hostChar p)).head? ≠ some '_' := by
  intro hhead
  rw [fronted, Bool.or_eq_true, Bool.and_eq_true] at h
  rcases h with hdots | ⟨hp, hreserved⟩
  · rw [← all_dots_map (p := p)] at hdots
    have hmem : '_' ∈ n.map (hostChar p) := List.mem_of_head? hhead
    have hdot : decide ('_' = '.') = true := List.all_eq_true.mp hdots '_' hmem
    exact absurd hdot (by decide)
  · rw [guardEnd_map hp] at hreserved
    obtain ⟨y, hy⟩ : ∃ y, n.map (hostChar p) = '_' :: y := by
      cases hm : n.map (hostChar p) with
      | nil => simp [hn] at hm
      | cons x y =>
        rw [hm] at hhead
        exact ⟨y, by simpa using hhead⟩
    rw [hy, List.cons_append, not_reserved_underscore] at hreserved
    exact absurd hreserved (by decide)

theorem length_underscore (b : Bool) : (underscore b).length = b.toNat := by
  cases b <;> rfl

theorem length_hostName (hn : n ≠ []) :
    (hostName p n).length = (fronted p n).toNat + n.length + (ended p n).toNat := by
  rw [hostName_spelled hn, List.length_append, List.length_append, List.length_map, length_underscore,
    length_underscore]

theorem ended_append {a : Text} (hn : n ≠ []) : ended p (a ++ n) = ended p n := by
  rw [ended, ended, List.getLast?_append_of_ne_nil _ hn]

theorem ended_backslash (a : Text) : ended p (a ++ ['\\']) = false := by
  simp [ended]

/-- A separator before the name is a `_` more, unless it is the only one that there is. -/
theorem hostName_before_iff (hn : n ≠ []) {a : Text} :
    hostName p (a ++ '\\' :: n) = hostName p n ↔ a = [] ∧ fronted p n = true := by
  have hend : ended p (a ++ '\\' :: n) = ended p n := by
    rw [List.append_cons, ended_append hn]
  constructor
  · intro h
    have hlen := congrArg List.length h
    have hf := Bool.toNat_le (fronted p n)
    rw [length_hostName (by simp), length_hostName hn, hend] at hlen
    simp only [List.length_append, List.length_cons] at hlen
    refine ⟨List.length_eq_zero_iff.mp (by omega), ?_⟩
    apply Bool.toNat_eq_one.mp
    omega
  · rintro ⟨rfl, hf⟩
    rw [hostName_spelled (by simp), hostName_spelled hn, hend, List.nil_append, not_fronted_of_backslash,
      hf, List.map_cons, hostChar_backslash]
    rfl

theorem not_reserved_dot (t : Text) : windowsReserved ('.' :: t) = false := by
  have hstem : deviceStem ('.' :: t) = deviceStem ['.'] := by simp [deviceStem]
  rw [windowsReserved_congr hstem]
  decide

/-- A `_` behind dots leaves them without one in front. -/
theorem fronted_dots (hn : n ≠ []) (h : n.all (· = '.') = true) :
    fronted p n = true ∧ fronted p (n ++ ['\\']) = false := by
  refine ⟨by simp [fronted, h], ?_⟩
  have hall : (n ++ ['\\']).all (· = '.') = false := by simp
  rw [fronted, hall, Bool.false_or, Bool.and_eq_false_iff]
  cases hp : p.windows with
  | false => exact .inl rfl
  | true =>
    right
    obtain ⟨x, y, rfl⟩ := List.exists_cons_of_ne_nil hn
    have hx : x = '.' := by
      have := List.all_eq_true.mp h x List.mem_cons_self
      simpa using this
    rw [guardEnd_map hp, hx, List.cons_append, List.map_cons, hostChar_of_stands stands_dot]
    exact not_reserved_dot _

/-- On Windows a separator behind the name is the `_` that a final dot or space gets. -/
theorem hostName_after_iff (hn : n ≠ []) {b : Text} :
    hostName p (n ++ '\\' :: b) = hostName p n ↔
      b = [] ∧ ended p n = true ∧ n.all (· = '.') = false := by
  constructor
  · intro h
    have hlen := congrArg List.length h
    rw [length_hostName (by simp), length_hostName hn] at hlen
    simp only [List.length_append, List.length_cons] at hlen
    have he := Bool.toNat_le (ended p n)
    -- If the name gets a `_` in front, the longer one gets it, too.
    have hfront : fronted p n = true → fronted p (n ++ '\\' :: b) = true := by
      intro hf
      by_contra hnot
      rw [Bool.not_eq_true] at hnot
      apply head_of_fronted hn hf
      rw [hostName_spelled (by simp), hostName_spelled hn, hf, hnot] at h
      obtain ⟨x, y, hxy⟩ := List.exists_cons_of_ne_nil (l := n.map (hostChar p)) (by simpa using hn)
      rw [List.map_append, hxy] at h
      rw [hxy, (List.cons.inj h).1]
      rfl
    have hf : (fronted p n).toNat ≤ (fronted p (n ++ '\\' :: b)).toNat := by
      cases hf : fronted p n with
      | false => exact Nat.zero_le _
      | true => rw [hfront hf]
    have hb : b = [] := List.length_eq_zero_iff.mp (by omega)
    refine ⟨hb, Bool.toNat_eq_one.mp (by omega), ?_⟩
    by_contra hdots
    rw [Bool.not_eq_false] at hdots
    obtain ⟨hf, hnot⟩ := fronted_dots (p := p) hn hdots
    have := hfront hf
    rw [hb, hnot] at this
    exact absurd this (by decide)
  · rintro ⟨rfl, he, hd⟩
    have hfront : fronted p (n ++ ['\\']) = fronted p n := by
      have hall : (n ++ ['\\']).all (· = '.') = false := by simp
      unfold fronted
      rw [hall, hd]
      cases hp : p.windows with
      | false => rfl
      | true =>
        rw [guardEnd_map hp, guardEnd_map hp, ended_backslash, he, List.map_append, List.map_singleton,
          hostChar_backslash]
        simp [underscore]
    rw [hostName_spelled (by simp), hostName_spelled hn, hfront, ended_backslash, he, List.map_append,
      List.map_singleton, hostChar_backslash]
    simp [underscore]

theorem hostName_between_iff (hn : n ≠ []) {a b : Text} :
    hostName p (a ++ '\\' :: (n ++ '\\' :: b)) = hostName p n ↔
      a = [] ∧ b = [] ∧ fronted p n = true ∧ ended p n = true := by
  constructor
  · intro h
    have hlen := congrArg List.length h
    have hf := Bool.toNat_le (fronted p n)
    have he := Bool.toNat_le (ended p n)
    rw [length_hostName (by simp), length_hostName hn] at hlen
    simp only [List.length_append, List.length_cons] at hlen
    refine ⟨List.length_eq_zero_iff.mp (by omega), List.length_eq_zero_iff.mp (by omega), ?_, ?_⟩
    · apply Bool.toNat_eq_one.mp
      omega
    · apply Bool.toNat_eq_one.mp
      omega
  · rintro ⟨rfl, rfl, hf, he⟩
    have hend : ended p ('\\' :: (n ++ ['\\'])) = false := ended_backslash ('\\' :: n)
    rw [hostName_spelled hn, List.nil_append, hostName_spelled (by simp), not_fronted_of_backslash, hend, hf,
      he, List.map_cons, List.map_append, hostChar_backslash]
    simp [underscore, hostChar_backslash]

/-- What becomes of separators and single dots: each separator a `_`, and one more in front
of no separator at all, and on Windows behind a final dot. -/
def blank (p : Platform) (t : Text) : Text :=
  underscore (t.all (· = '.')) ++ t.map (fun ch => if ch = '.' then ch else '_') ++
    underscore (p.windows && t.getLast? = some '.')

theorem Fs.mem_of_nameless {t : Text} (h : pathParts t = []) (hslash : '/' ∉ t) :
    ∀ ch ∈ t, ch = '.' ∨ ch = '\\' := by
  induction hk : t.length using Nat.strongRecOn generalizing t with
  | ind k ih =>
    have hplain : ∀ r : Text, (∀ x ∈ r, isSeparator x = false) → pathParts r = [] → ∀ ch ∈ r, ch = '.' := by
      intro r hr hrest
      rw [pathParts_plain hr] at hrest
      split_ifs at hrest with ht
      rcases ht with rfl | rfl <;> simp
    rcases exists_last_separator t with hp | ⟨l, ch, r, rfl, hch, hr⟩
    · exact fun ch hmem => .inl (hplain t hp h ch hmem)
    · rw [pathParts_append_sep hch, List.append_eq_nil_iff] at h
      have hlt : l.length < k := by
        rw [← hk, List.length_append]
        simp
      have hl : '/' ∉ l := fun hmem => hslash (List.mem_append_left _ hmem)
      intro x hx
      rcases List.mem_append.mp hx with hx | hx
      · exact ih l.length hlt h.1 hl rfl x hx
      · rcases List.mem_cons.mp hx with rfl | hx
        · right
          rw [isSeparator, decide_eq_true_eq] at hch
          exact hch.resolve_left fun he => hslash (he ▸ by simp)
        · exact .inl (hplain r hr h.2 x hx)

theorem hostName_nameless (h : Fs.pathParts t = []) (hslash : '/' ∉ t) : hostName p t = blank p t := by
  have hmem := Fs.mem_of_nameless h hslash
  cases t with
  | nil =>
    rw [hostName_eq]
    cases hp : p.windows with
    | false => simp [guardDots, blank, underscore, hp]
    | true =>
      show guardDevice (guardEnd ['_']) = _
      rw [show guardEnd ['_'] = ['_'] by decide, guardDevice, not_reserved_underscore]
      simp [blank, underscore]
  | cons x y =>
    have hmap : (x :: y).map (hostChar p) = (x :: y).map (fun ch => if ch = '.' then ch else '_') := by
      apply List.map_congr_left
      intro ch hch
      rcases hmem ch hch with rfl | rfl
      · rw [hostChar_of_stands stands_dot, if_pos rfl]
      · rw [hostChar_backslash, if_neg (by decide)]
    have hfront : fronted p (x :: y) = (x :: y).all (· = '.') := by
      rw [fronted, Bool.or_eq_left_iff_imp]
      intro hreserved
      rw [Bool.and_eq_true] at hreserved
      obtain ⟨hp, hreserved⟩ := hreserved
      rw [guardEnd_map hp] at hreserved
      rcases hmem x List.mem_cons_self with rfl | rfl
      · rw [List.map_cons, hostChar_of_stands stands_dot, List.cons_append, not_reserved_dot] at hreserved
        exact absurd hreserved (by decide)
      · rw [List.map_cons, hostChar_backslash, List.cons_append, not_reserved_underscore] at hreserved
        exact absurd hreserved (by decide)
    have hend : ended p (x :: y) = (p.windows && (x :: y).getLast? = some '.') := by
      have hspace : (x :: y).getLast? ≠ some ' ' := by
        intro hlast
        rcases hmem ' ' (List.mem_of_getLast? hlast) with he | he
        · exact absurd he (by decide)
        · exact absurd he (by decide)
      simp [ended, hspace]
    rw [hostName_spelled (List.cons_ne_nil x y), hfront, hend, hmap]
    rfl

/-- `copy` gives an entry the name that it has, where `t` is what follows the last `/` of the
path and `n` the name: nothing but the name follows it; or one separator does before or
behind the name, or both, where `hostName` puts a `_` there; or no name follows it, and the
name is one that becomes the same underscores and dots. -/
def KeepsName (p : Platform) (t n : Text) : Prop :=
  t = n ∨
  t = '\\' :: n ∧ fronted p n = true ∨
  t = n ++ ['\\'] ∧ ended p n = true ∧ n.all (· = '.') = false ∨
  t = '\\' :: (n ++ ['\\']) ∧ fronted p n = true ∧ ended p n = true ∨
  Fs.pathParts t = [] ∧ hostName p n = blank p t

theorem Fs.separator_of_not_mem {ch : Char} {t : Text} (h : isSeparator ch = true) (hmem : ch ∈ t)
    (hslash : '/' ∉ t) : ch = '\\' := by
  rw [isSeparator, decide_eq_true_eq] at h
  apply h.resolve_left
  rintro rfl
  exact hslash hmem

theorem keepsName_of_nameless (hn : Fs.pathParts n = [n]) (h : Fs.pathParts t = []) :
    KeepsName p t n ↔ hostName p n = blank p t := by
  have hfront : Fs.pathParts ('\\' :: n) = [n] := by
    rw [← List.nil_append ('\\' :: n), Fs.pathParts_append_sep (by decide), Fs.pathParts_nil, hn]
    rfl
  have hback : ∀ m, Fs.pathParts m = [n] → Fs.pathParts (m ++ ['\\']) = [n] := by
    intro m hm
    rw [Fs.pathParts_append_sep (by decide), hm, Fs.pathParts_nil]
    rfl
  have hboth : Fs.pathParts ('\\' :: (n ++ ['\\'])) = [n] := hback _ hfront
  constructor
  · rintro (rfl | ⟨rfl, -⟩ | ⟨rfl, -⟩ | ⟨rfl, -⟩ | ⟨-, h'⟩)
    · simp [hn] at h
    · simp [hfront] at h
    · simp [hback n hn] at h
    · simp [hboth] at h
    · exact h'
  · intro h'
    exact .inr (.inr (.inr (.inr ⟨h, h'⟩)))

section around

variable (hn : '\\' ∉ n) (hne : n ≠ [])

include hn hne

theorem backslash_ne : '\\' :: n ≠ n ++ ['\\'] := by
  intro h
  obtain ⟨x, y, rfl⟩ := List.exists_cons_of_ne_nil hne
  rw [List.cons_append] at h
  exact hn ((List.cons.inj h).1 ▸ List.mem_cons_self)

theorem keepsName_before_iff {a : Text} (h : Fs.pathParts (a ++ '\\' :: n) ≠ []) :
    KeepsName p (a ++ '\\' :: n) n ↔ a = [] ∧ fronted p n = true := by
  constructor
  · rintro (he | ⟨he, hf⟩ | ⟨he, -⟩ | ⟨he, -⟩ | ⟨hnil, -⟩)
    · have hlen := congrArg List.length he
      simp only [List.length_append, List.length_cons] at hlen
      omega
    · have hlen := congrArg List.length he
      simp only [List.length_append, List.length_cons] at hlen
      exact ⟨List.length_eq_zero_iff.mp (by omega), hf⟩
    · have hlen := congrArg List.length he
      simp only [List.length_append, List.length_cons, List.length_nil] at hlen
      obtain rfl : a = [] := List.length_eq_zero_iff.mp (by omega)
      exact absurd he (backslash_ne hn hne)
    · have hlen := congrArg List.length he
      simp only [List.length_append, List.length_cons, List.length_nil] at hlen
      have hone : a.length = 1 := by omega
      obtain ⟨x, rfl⟩ := List.length_eq_one_iff.mp hone
      exact absurd (List.cons.inj he).2 (backslash_ne hn hne)
    · exact absurd hnil h
  · rintro ⟨rfl, hf⟩
    exact .inr (.inl ⟨rfl, hf⟩)

theorem keepsName_after_iff {b : Text} (h : Fs.pathParts (n ++ '\\' :: b) ≠ []) :
    KeepsName p (n ++ '\\' :: b) n ↔ b = [] ∧ ended p n = true ∧ n.all (· = '.') = false := by
  constructor
  · rintro (he | ⟨he, -⟩ | ⟨he, hd⟩ | ⟨he, -⟩ | ⟨hnil, -⟩)
    · have hlen := congrArg List.length he
      simp only [List.length_append, List.length_cons] at hlen
      omega
    · have hlen := congrArg List.length he
      simp only [List.length_append, List.length_cons] at hlen
      obtain rfl : b = [] := List.length_eq_zero_iff.mp (by omega)
      exact absurd he.symm (backslash_ne hn hne)
    · have hlen := congrArg List.length he
      simp only [List.length_append, List.length_cons, List.length_nil] at hlen
      exact ⟨List.length_eq_zero_iff.mp (by omega), hd⟩
    · obtain ⟨x, y, rfl⟩ := List.exists_cons_of_ne_nil hne
      rw [List.cons_append] at he
      exact absurd ((List.cons.inj he).1 ▸ List.mem_cons_self) hn
    · exact absurd hnil h
  · rintro ⟨rfl, hd⟩
    exact .inr (.inr (.inl ⟨rfl, hd⟩))

omit hn hne in
theorem keepsName_between_iff {a b : Text} (h : Fs.pathParts (a ++ '\\' :: (n ++ '\\' :: b)) ≠ []) :
    KeepsName p (a ++ '\\' :: (n ++ '\\' :: b)) n ↔
      a = [] ∧ b = [] ∧ fronted p n = true ∧ ended p n = true := by
  constructor
  · rintro (he | ⟨he, -⟩ | ⟨he, -⟩ | ⟨he, hf⟩ | ⟨hnil, -⟩)
    · have hlen := congrArg List.length he
      simp only [List.length_append, List.length_cons] at hlen
      omega
    · have hlen := congrArg List.length he
      simp only [List.length_append, List.length_cons] at hlen
      omega
    · have hlen := congrArg List.length he
      simp only [List.length_append, List.length_cons, List.length_nil] at hlen
      omega
    · have hlen := congrArg List.length he
      simp only [List.length_append, List.length_cons, List.length_nil] at hlen
      exact ⟨List.length_eq_zero_iff.mp (by omega), List.length_eq_zero_iff.mp (by omega), hf⟩
    · exact absurd hnil h
  · rintro ⟨rfl, rfl, hf⟩
    exact .inr (.inr (.inr (.inl ⟨rfl, hf⟩)))

end around

theorem hostName_afterSlash_iff {path : Text} (h : (Fs.pathParts path).getLast? = some n) :
    hostName p (afterSlash path) = hostName p n ↔ KeepsName p (afterSlash path) n := by
  have hslash := Fs.slash_not_mem_afterSlash path
  have hlast := Fs.last_afterSlash h
  have hdot : n ≠ ['.'] := by
    have hkept := List.of_mem_filter (List.mem_of_getLast? h)
    exact (of_decide_eq_true hkept).2
  obtain ⟨a, b, hpath⟩ := Fs.exists_around h
  have hn := hpath.nonempty
  have hparts : Fs.pathParts n = [n] := by
    rw [Fs.pathParts_plain hpath.plain, if_neg (by simp [hn, hdot])]
  have hplain : '\\' ∉ n := fun hmem => by
    have := hpath.plain _ hmem
    exact absurd this (by decide)
  generalize afterSlash path = t at hslash hlast
  rcases hlast with hnone | hlast
  · rw [keepsName_of_nameless hparts hnone, hostName_nameless hnone hslash]
    exact eq_comm
  · have hsome : Fs.pathParts t ≠ [] := by
      intro hnil
      simp [hnil] at hlast
    obtain ⟨a, b, ht⟩ := Fs.exists_around hlast
    have htab := ht.eq
    rcases ht.before with rfl | ⟨a, ch, rfl, hch⟩
    · rcases ht.after with rfl | ⟨ch, b, rfl, hch⟩
      · rw [List.nil_append, List.append_nil] at htab
        exact iff_of_true (by rw [htab]) (.inl htab)
      · obtain rfl := Fs.separator_of_not_mem hch (by simp [htab]) hslash
        rw [List.nil_append] at htab
        rw [htab] at hsome ⊢
        rw [hostName_after_iff hn, keepsName_after_iff hplain hn hsome]
    · obtain rfl := Fs.separator_of_not_mem hch (by simp [htab]) hslash
      rcases ht.after with rfl | ⟨ch, b, rfl, hch'⟩
      · rw [List.append_nil, List.append_assoc, List.singleton_append] at htab
        rw [htab] at hsome ⊢
        rw [hostName_before_iff hn, keepsName_before_iff hplain hn hsome]
      · obtain rfl := Fs.separator_of_not_mem hch' (by simp [htab]) hslash
        rw [List.append_assoc, List.append_assoc, List.singleton_append] at htab
        rw [htab] at hsome ⊢
        rw [hostName_between_iff hn, keepsName_between_iff hsome]

/-! ## What a path leads to -/

namespace Fs

variable {β : Type} {fs : Fs β}

/-- From `s` on `loc` is no directory, whenever its inode is read. -/
def NoDir (fs : Fs β) (s : FsState β) (loc : Loc) : Prop :=
  ∀ t t' i, fs.Later s t → fs.inode loc t = .ok i t' → i.isDir = false

section later

variable {s₀ : FsState β}

theorem checkDir_keeps (dir : Loc) (walked : Text) : Keeps (fs.Later s₀) (fs.checkDir dir walked) :=
  keeps_of_alike (checkDir_alike readNode_later tree_later (fun loc _ _ _ => readsAlike_later loc) dir walked)

theorem lookup_keeps (dir : Loc) (name : Bytes) : Keeps (fs.Later s₀) (fs.lookup dir name) :=
  keeps_of_alike (lookup_alike readNode_later tree_later dir name)

theorem root_keeps : Keeps (fs.Later s₀) fs.root := keeps_of_alike (root_alike tree_later)

/-- What a path goes on from is a directory. -/
theorem not_noDir_of_checkDir {dir : Loc} {walked : Text} {s s' : FsState β} {u : Unit}
    (hs : fs.Later s₀ s) (h : fs.checkDir dir walked s = .ok u s') : ¬ fs.NoDir s₀ dir := by
  intro hno
  unfold checkDir at h
  split_ifs at h with hp
  · have hi : fs.inode dir s = .ok placeholderInode s := by
      rw [inode, if_pos hp]
      rfl
    exact absurd (hno s s _ hs hi) (by decide)
  · obtain ⟨i, s₁, hi, h⟩ := bind_ok_iff.mp h
    have hdir := hno s s₁ i hs hi
    split_ifs at h
    · obtain ⟨target, s₂, -, h⟩ := bind_ok_iff.mp h
      cases h
    · rw [hdir] at h
      cases h

end later

theorem entry_keeps_name {dir : Loc} {d : DirEntry} {e : Entry} {s s' : FsState β}
    (h : fs.entry dir d s = .ok e s') : e.name = d.name := by
  unfold entry at h
  split_ifs at h
  · cases h
    rfl
  · obtain ⟨o, s₁, -, h⟩ := bind_ok_iff.mp h
    cases o with
    | none =>
      cases h
      rfl
    | some item =>
      obtain ⟨r, s₂, -, h⟩ := bind_ok_iff.mp h
      cases h
      rfl

theorem lookup_name {dir : Loc} {name : Bytes} {e : Entry} {s s' : FsState β}
    (h : fs.lookup dir name s = .ok (some e) s') : e.name = name := by
  unfold lookup at h
  split_ifs at h with hp
  · cases h
  obtain ⟨r, s₁, -, h⟩ := bind_ok_iff.mp h
  obtain ⟨item, s₂, -, h⟩ := bind_ok_iff.mp h
  cases item with
  | none => cases h
  | some item =>
    obtain ⟨es, s₃, -, h⟩ := bind_ok_iff.mp h
    cases hfind : es.find? (·.name = name) with
    | none =>
      rw [hfind] at h
      cases h
    | some d =>
      rw [hfind] at h
      have hd : d.name = name := by simpa using List.find?_some hfind
      obtain ⟨e', s₄, hentry, h⟩ := bind_ok_iff.mp h
      cases h
      rw [← hd]
      exact entry_keeps_name hentry

/-- The last name of the parts was looked up in `dir`, and is the entry `e`. -/
def FoundLast (fs : Fs β) (parts : List Text) (loc : Loc) : Prop :=
  ∃ dir n e s s', parts.getLast? = some n ∧ fs.lookup dir (Utf8.toUtf8 n) s = .ok (some e) s' ∧
    e.loc = loc

/-- What is no directory is what the last name is, unless there is no name. -/
theorem foundLast_of_resolveFrom {s₀ : FsState β} {loc : Loc} (hno : fs.NoDir s₀ loc) :
    ∀ {parts : List Text} {dir : Loc} {above : List Loc} {walked : Text} {s s' : FsState β},
      (∀ l ∈ above, ¬ fs.NoDir s₀ l) → fs.Later s₀ s →
      fs.resolveFrom parts dir above walked s = .ok loc s' →
      fs.FoundLast parts loc ∨ (∀ part ∈ parts, part = ['.', '.']) ∧ (parts = [] ∨ above = []) ∧
        loc = dir
  | [], dir, above, walked, s, s', _, _, h => by
    cases h
    exact .inr ⟨by simp, .inl rfl, rfl⟩
  | part :: parts, dir, above, walked, s, s', habove, hs, h => by
    unfold resolveFrom at h
    have hcons : fs.FoundLast parts loc → fs.FoundLast (part :: parts) loc := by
      rintro ⟨d, n, e, s, s', hlast, hfound⟩
      exact ⟨d, n, e, s, s', by rw [List.getLast?_cons, hlast]; rfl, hfound⟩
    split_ifs at h with hup
    · cases above with
      | nil =>
        rcases foundLast_of_resolveFrom hno habove hs h with hlast | ⟨hall, -, hloc⟩
        · exact .inl (hcons hlast)
        · refine .inr ⟨?_, .inr rfl, hloc⟩
          intro q hq
          rcases List.mem_cons.mp hq with rfl | hq
          · exact hup
          · exact hall q hq
      | cons parent above =>
        have hup' : ∀ l ∈ above, ¬ fs.NoDir s₀ l := fun l hl => habove l (List.mem_cons_of_mem _ hl)
        rcases foundLast_of_resolveFrom hno hup' hs h with hlast | ⟨-, -, hloc⟩
        · exact .inl (hcons hlast)
        · exact absurd (hloc ▸ hno) (habove parent List.mem_cons_self)
    · obtain ⟨u, s₁, hcheck, h⟩ := bind_ok_iff.mp h
      obtain ⟨o, s₂, hlookup, h⟩ := bind_ok_iff.mp h
      have hs₁ : fs.Later s₀ s₁ := (checkDir_keeps dir walked).ok hs hcheck
      have hs₂ : fs.Later s₀ s₂ := (lookup_keeps dir _).ok hs₁ hlookup
      cases o with
      | none => cases h
      | some e =>
        have habove' : ∀ l ∈ dir :: above, ¬ fs.NoDir s₀ l := by
          intro l hl
          rcases List.mem_cons.mp hl with rfl | hl
          · exact not_noDir_of_checkDir hs hcheck
          · exact habove l hl
        rcases foundLast_of_resolveFrom hno habove' hs₂ h with hlast | ⟨-, hnil | hnil, hloc⟩
        · exact .inl (hcons hlast)
        · subst hnil
          exact .inl ⟨dir, part, e, s₁, s₂, rfl, hlookup, hloc.symm⟩
        · cases hnil

end Fs

namespace Copier

variable {β η φ : Type} {c : Copier β η φ}

/-- Copying what is no directory is recorded first, and nothing else is. -/
theorem log_copyLeaf (loc : Loc) (src : Text) (dest : HostPath) (s : FsState β) (w : Work η) :
    (Result.state (c.copyLeaf loc src dest (s, w))).2.log = w.log ++ [.leaf loc dest w.host] := by
  have hframe : c.Respects (fun _ => True) fun w' => w'.log = w.log ++ [.leaf loc dest w.host] :=
    respects_of_frame c fun _ _ _ h => h
  exact (leafRest_keeps hframe loc src trivial trivial).state
    (show OfWork _ (s, { w with log := w.log ++ [.leaf loc dest w.host] }) from rfl)

theorem log_copy {src : Text} {s s₁ : FsState β} {loc : Loc} {i : Inode} {w : Work η}
    {dest : HostPath} {host : η} (hinode : c.fs.inode loc s = .ok i s₁) (hi : i.isDir = false)
    (hdest : c.host.isDir dest w.host = .ok true host) :
    (Result.state (c.copy loc src dest (s, w))).2.log =
      w.log ++ [.leaf loc (dest.join c.platform (hostName c.platform (afterSlash src))) host] := by
  have hi' : onFst (c.fs.inode loc) (s, w) = .ok i (s₁, w) := by
    show done _ _ = _
    rw [hinode]
    rfl
  have hd : attempt (onSnd (hostCall hostError (c.host.isDir dest))) (s₁, w) =
      .ok (.ok true) (s₁, { w with host := host }) := by
    have hcall : hostCall hostError (c.host.isDir dest) w = .ok true { w with host := host } := by
      unfold hostCall
      rw [hdest]
    rw [attempt_run, onSnd, hcall]
    rfl
  rw [copy, bind_of_ok hi', hi, if_neg (by decide), bind_of_ok hd]
  exact log_copyLeaf loc src _ s₁ { w with host := host }

/-- A file that is copied into a directory gets there the name of the entry that it is,
if, and only if, the path is spelled so that this follows the last `/`, or as good as does. -/
theorem copy_keeps_name_iff {src : Text} {s s₁ s₂ : FsState β} {loc : Loc} {i : Inode} {w : Work η}
    {dest : HostPath} {host : η} (hres : c.fs.resolve src s = .ok loc s₁) (hno : c.fs.NoDir s loc)
    (hinode : c.fs.inode loc s₁ = .ok i s₂) (hdest : c.host.isDir dest w.host = .ok true host) :
    (∀ part ∈ Fs.pathParts src, part = ['.', '.']) ∨
    ∃ dir n e s₃ s₄, (Fs.pathParts src).getLast? = some n ∧
      c.fs.lookup dir (Utf8.toUtf8 n) s₃ = .ok (some e) s₄ ∧ e.loc = loc ∧ e.nameLossy = n ∧
      ((Result.state (c.copy loc src dest (s₁, w))).2.log =
        w.log ++ [.leaf loc (dest.join c.platform (hostName c.platform e.nameLossy)) host] ↔
          KeepsName c.platform (afterSlash src) n) := by
  have hlater : c.fs.Later s s₁ := (Fs.resolve_keeps src).ok .refl hres
  obtain ⟨r, s₀, hroot, hfrom⟩ := bind_ok_iff.mp hres
  have hfound := Fs.foundLast_of_resolveFrom hno (by simp) (Fs.root_keeps.ok .refl hroot) hfrom
  rcases hfound with ⟨dir, n, e, s₃, s₄, hlast, hfound, hloc⟩ | ⟨hall, -⟩
  · right
    have hname : e.nameLossy = n := by
      rw [Entry.nameLossy, Fs.lookup_name hfound, Utf8.fromUtf8Lossy_toUtf8]
    refine ⟨dir, n, e, s₃, s₄, hlast, hfound, hloc, hname, ?_⟩
    rw [log_copy hinode (hno _ _ _ hlater hinode) hdest, hname, ← hostName_afterSlash_iff hlast,
      (safeName_hostName _ _).join, (safeName_hostName _ _).join]
    simp
  · exact .inl hall

end Copier

namespace Image

theorem inode_volume : ∃ i, (volume (oneFile [0x66])).inode ⟨FS_TREE_OBJECTID, 257⟩ = .ok i ∧
    i.isDir = false := returns_iff.mp (by decide +kernel)

/-- The file's inode, in every state that reading leads to. -/
theorem inode_gone {t : FsState Unit} (ht : goneCopier.fs.Later (oneFileState [0x66]) t) :
    ∃ i t', goneCopier.fs.inode ⟨FS_TREE_OBJECTID, 257⟩ t = .ok i t' ∧ i.isDir = false := by
  have hcached := Fs.Lasting.of_gone rfl stores_gone _ _ (cached_cachedLeaves _ _ ()) ht
  obtain ⟨i, hv, hdir⟩ := inode_volume
  have hyields : Yields _ (goneCopier.fs.inode ⟨FS_TREE_OBJECTID, 257⟩)
      ((volume (oneFile [0x66])).inode ⟨FS_TREE_OBJECTID, 257⟩) := stores_gone.inode fun _ => .top
  rw [hv] at hyields
  obtain ⟨t', -, hrun⟩ := hyields t hcached
  exact ⟨i, t', hrun, hdir⟩

theorem noDir_gone : goneCopier.fs.NoDir (oneFileState [0x66]) ⟨FS_TREE_OBJECTID, 257⟩ := by
  intro t t' i ht hi
  obtain ⟨j, t'', hj, hdir⟩ := inode_gone ht
  rw [hi] at hj
  obtain rfl : i = j := (EStateM.Result.ok.inj hj).1
  exact hdir

end Image

open Image in
/-- `/f` is copied to `f`. -/
theorem Copier.copy_keeps_name_f : ∃ s₁ s₂ i,
    goneCopier.fs.resolve ['/', 'f'] (oneFileState [0x66]) = .ok ⟨FS_TREE_OBJECTID, 257⟩ s₁ ∧
    goneCopier.fs.inode ⟨FS_TREE_OBJECTID, 257⟩ s₁ = .ok i s₂ ∧ i.isDir = false ∧
    (Result.state (goneCopier.copy ⟨FS_TREE_OBJECTID, 257⟩ ['/', 'f'] [['d']]
      (s₁, Work.start ([], 0)))).2.log = [.leaf ⟨FS_TREE_OBJECTID, 257⟩ [['d'], ['f']] ([], 0)] := by
  have hresolve : Result.passes (fun loc _ => loc = ⟨FS_TREE_OBJECTID, 257⟩)
      (goneCopier.fs.resolve ['/', 'f'] (oneFileState [0x66])) = true := by decide +kernel
  obtain ⟨loc, s₁, hres, hloc⟩ := Result.exists_of_passes hresolve
  obtain rfl : loc = ⟨FS_TREE_OBJECTID, 257⟩ := of_decide_eq_true hloc
  obtain ⟨i, s₂, hi, hdir⟩ := inode_gone ((Fs.resolve_keeps _).ok .refl hres)
  refine ⟨s₁, s₂, i, hres, hi, hdir, ?_⟩
  have hdest : goneCopier.host.isDir [['d']] (Work.start (([] : Bytes), 0)).host = .ok true ([], 0) := rfl
  rcases Copier.copy_keeps_name_iff hres noDir_gone hi hdest with
    hall | ⟨dir, n, e, s₃, s₄, hlast, -, -, hname, hiff⟩
  · exact absurd hall (by decide)
  · have hparts : (Fs.pathParts ['/', 'f']).getLast? = some ['f'] := by decide
    obtain rfl : ['f'] = n := Option.some.inj (hparts.symm.trans hlast)
    have hjoin : HostPath.join goneCopier.platform [['d']] (hostName goneCopier.platform ['f']) =
        [['d'], ['f']] := by decide
    rw [hiff.mpr (.inl (by decide)), hname, hjoin]
    rfl

open Image in
/-- `/f/` resolves to the same file, and is copied to `_`. -/
theorem Copier.copy_trailing_slash : ∃ s₁ s₂ s₃ e i,
    goneCopier.fs.resolve ['/', 'f', '/'] (oneFileState [0x66]) = .ok ⟨FS_TREE_OBJECTID, 257⟩ s₁ ∧
    goneCopier.fs.lookup ⟨FS_TREE_OBJECTID, ROOT_DIR⟩ (Utf8.toUtf8 ['f']) s₁ = .ok (some e) s₂ ∧
    e.loc = ⟨FS_TREE_OBJECTID, 257⟩ ∧
    hostName goneCopier.platform e.nameLossy = ['f'] ∧
    goneCopier.fs.inode ⟨FS_TREE_OBJECTID, 257⟩ s₁ = .ok i s₃ ∧ i.isDir = false ∧
    (Result.state (goneCopier.copy ⟨FS_TREE_OBJECTID, 257⟩ ['/', 'f', '/'] [['d']]
      (s₁, Work.start ([], 0)))).2.log = [.leaf ⟨FS_TREE_OBJECTID, 257⟩ [['d'], ['_']] ([], 0)] := by
  have hresolve : Result.passes (fun loc s₁ => loc = ⟨FS_TREE_OBJECTID, 257⟩ &&
      Result.passes (fun e _ => e = some ⟨[0x66], ⟨FS_TREE_OBJECTID, 257⟩, 1, false⟩)
        (goneCopier.fs.lookup ⟨FS_TREE_OBJECTID, ROOT_DIR⟩ (Utf8.toUtf8 ['f']) s₁))
      (goneCopier.fs.resolve ['/', 'f', '/'] (oneFileState [0x66])) = true := by decide +kernel
  obtain ⟨loc, s₁, hres, htest⟩ := Result.exists_of_passes hresolve
  obtain ⟨hloc, hlookup⟩ := Bool.and_eq_true_iff.mp htest
  obtain rfl : loc = ⟨FS_TREE_OBJECTID, 257⟩ := of_decide_eq_true hloc
  obtain ⟨e, s₂, hlookup, he⟩ := Result.exists_of_passes hlookup
  obtain rfl := of_decide_eq_true he
  obtain ⟨i, s₃, hi, hdir⟩ := inode_gone ((Fs.resolve_keeps _).ok .refl hres)
  have hdest : goneCopier.host.isDir [['d']] (Work.start (([] : Bytes), 0)).host = .ok true ([], 0) := rfl
  refine ⟨s₁, s₂, s₃, _, i, hres, hlookup, rfl, by decide +kernel, hi, hdir, ?_⟩
  have hjoin : HostPath.join goneCopier.platform [['d']]
      (hostName goneCopier.platform (afterSlash ['/', 'f', '/'])) = [['d'], ['_']] := by decide
  rw [Copier.log_copy hi hdir hdest, hjoin]
  rfl

end BtrfsPeek
