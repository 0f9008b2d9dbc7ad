/-
  Xv6.User.Grep — `user/grep.c`: the matcher and the loop over the input.

  A C string is the list of its bytes before the NUL.  `lang` reads a pattern
  from left to right: `c*` is any number of `c`, `.` is any character, a `$`
  at the end stands for nothing and anchors.  `matchhere_iff` compares it with
  the backtracking of `matchhere` and `matchstar`.

  `grep` puts lines together in a buffer of 1024 bytes.  A line that does not
  fit, or that no newline ends, is never looked at: `read` returns 0.

  Main results: `match_language`, `prints_matching`.
-/
import Mathlib

namespace Xv6.Grep

open Computability

/-! ## §1. The matcher. -/

/-- the repetition sign -/
def star : UInt8 := '*'.toUInt8

/-- the wildcard -/
def dot : UInt8 := '.'.toUInt8

/-- the sign for the end -/
def dollar : UInt8 := '$'.toUInt8

/-- the sign for the start -/
def hat : UInt8 := '^'.toUInt8

variable {here : List UInt8 → Bool} {c t : UInt8} {re text : List UInt8}

/-- `c` of a pattern and `t` of a text -/
def fits (c t : UInt8) : Bool := c == dot || c == t

/-- `matchstar(c, re, text)`, with `here` for `matchhere(re, ·)` -/
def matchstar (here : List UInt8 → Bool) (c : UInt8) : List UInt8 → Bool
  | [] => here []
  | t :: text => here (t :: text) || fits c t && matchstar here c text

/-- The last two lines of `matchhere`, with `here` for `matchhere(re+1, ·)`. -/
def matchone (here : List UInt8 → Bool) (c : UInt8) : List UInt8 → Bool
  | [] => false
  | t :: text => fits c t && here text

/-- `matchhere(re, text)` -/
def matchhere : List UInt8 → List UInt8 → Bool
  | [], _ => true
  | [c], text => if c = dollar then text.isEmpty else matchone (matchhere []) c text
  | c :: s :: re, text =>
    if s = star then matchstar (matchhere re) c text else matchone (matchhere (s :: re)) c text

/-- The loop of `match`. -/
def search (re : List UInt8) : List UInt8 → Bool
  | [] => matchhere re []
  | t :: text => matchhere re (t :: text) || search re text

/-- `match(re, text)` -/
def match_ (re text : List UInt8) : Bool :=
  if re.head? = some hat then matchhere re.tail text else search re text

/-! ## §2. The language of a pattern. -/

/-- The texts that `c` alone stands for. -/
def chars (c : UInt8) : Language UInt8 := {w | ∃ t, w = [t] ∧ fits c t}

/-- The words that a pattern without `^` stands for. -/
def lang : List UInt8 → Language UInt8
  | [] => 1
  | [c] => if c = dollar then 1 else chars c * 1
  | c :: s :: re => if s = star then (chars c)∗ * lang re else chars c * lang (s :: re)

/-- The pattern ends in a `$` that is read as the end of the text. -/
def anchored : List UInt8 → Bool
  | [] => false
  | [c] => c = dollar
  | _ :: s :: re => if s = star then anchored re else anchored (s :: re)

/-- `text` starts with a word of `L`, and with `a` it ends there as well. -/
def Starts (L : Language UInt8) (a : Bool) (text : List UInt8) : Prop :=
  ∃ mid post, text = mid ++ post ∧ mid ∈ L ∧ (a = true → post = [])

/-! ## §3. The matcher decides it. -/

section
variable {L M : Language UInt8} {a : Bool}

theorem Starts.mul : Starts (L * M) a text ↔ ∃ w rest, text = w ++ rest ∧ w ∈ L ∧ Starts M a rest := by
  constructor
  · rintro ⟨mid, post, htext, ⟨w, hw, v, hv, rfl⟩, hend⟩
    exact ⟨w, v ++ post, by simp [htext], hw, v, post, rfl, hv, hend⟩
  · rintro ⟨w, rest, htext, hw, v, post, rfl, hv, hend⟩
    exact ⟨w ++ v, post, by simp [htext], ⟨w, hw, v, hv, rfl⟩, hend⟩

theorem starts_one : Starts 1 a text ↔ (a = true → text = []) := by
  simp [Starts, Language.mem_one]

theorem mem_chars_kstar {w : List UInt8} : w ∈ (chars c)∗ ↔ ∀ t ∈ w, fits c t := by
  rw [Language.mem_kstar]
  constructor
  · rintro ⟨ws, rfl, hws⟩ t ht
    obtain ⟨w, hw, htw⟩ := List.mem_flatten.mp ht
    obtain ⟨t', rfl, hfits⟩ := hws w hw
    rwa [List.mem_singleton.mp htw]
  · intro hw
    refine ⟨w.map fun t => [t], by rw [← List.flatMap_def, List.flatMap_singleton'], fun v hv => ?_⟩
    obtain ⟨t, ht, rfl⟩ := List.mem_map.mp hv
    exact ⟨t, rfl, hw t ht⟩

theorem matchone_iff (ih : ∀ text, here text ↔ Starts M a text) :
    matchone here c text ↔ Starts (chars c * M) a text := by
  rw [Starts.mul]
  cases text with
  | nil =>
    have hno : [] ∉ chars c := fun ⟨t, ht, _⟩ => List.cons_ne_nil t [] ht.symm
    simp [matchone, hno]
  | cons t text =>
    simp only [matchone, Bool.and_eq_true, ih]
    constructor
    · exact fun h => ⟨[t], text, rfl, ⟨t, rfl, h.1⟩, h.2⟩
    · rintro ⟨w, rest, htext, ⟨t', rfl, hfits⟩, hrest⟩
      cases htext
      exact ⟨hfits, hrest⟩

/-- Backtracking: the characters that `c*` takes are those before the match of the rest. -/
theorem matchstar_iff (ih : ∀ text, here text ↔ Starts M a text) :
    matchstar here c text ↔ Starts ((chars c)∗ * M) a text := by
  rw [Starts.mul]
  induction text with
  | nil => simp [matchstar, ih, mem_chars_kstar]
  | cons t text iht =>
    simp only [matchstar, Bool.or_eq_true, Bool.and_eq_true, ih, iht, mem_chars_kstar]
    constructor
    · rintro (hhere | ⟨hfits, w, rest, rfl, hw, hrest⟩)
      · exact ⟨[], _, rfl, by simp, hhere⟩
      · exact ⟨t :: w, rest, rfl, by simpa using ⟨hfits, hw⟩, hrest⟩
    · rintro ⟨w, rest, htext, hw, hrest⟩
      cases w with
      | nil => exact .inl (htext ▸ hrest)
      | cons t' w =>
        cases htext
        simp only [List.mem_cons, forall_eq_or_imp] at hw
        exact .inr ⟨hw.1, w, rest, rfl, hw.2, hrest⟩

end

theorem matchhere_iff (re : List UInt8) : ∀ text, matchhere re text ↔ Starts (lang re) (anchored re) text := by
  fun_induction lang re with
  | case1 => simp [matchhere, anchored, starts_one]
  | case2 => simp [matchhere, anchored, starts_one]
  | case3 c hc =>
    intro text
    rw [matchhere, if_neg hc, anchored, decide_eq_false hc]
    exact matchone_iff fun _ => by simp [matchhere, starts_one]
  | case4 c re ih =>
    intro text
    rw [matchhere, if_pos rfl, anchored, if_pos rfl]
    exact matchstar_iff ih
  | case5 c s re hs ih =>
    intro text
    rw [matchhere, if_neg hs, anchored, if_neg hs]
    exact matchone_iff ih

/-- The loop of `match` skips characters as `.*` does. -/
theorem search_iff : search re text ↔ ∃ pre rest, text = pre ++ rest ∧ Starts (lang re) (anchored re) rest := by
  have hdot : search re text = matchstar (matchhere re) dot text := by
    induction text with
    | nil => rfl
    | cons t text ih => simp [search, matchstar, fits, ih]
  rw [hdot, matchstar_iff (matchhere_iff re), Starts.mul]
  simp [mem_chars_kstar, fits]

/-- **The matcher decides its language**: `mid` is a substring, at the start after a `^` and at the end before a `$`. -/
theorem match_language (re text : List UInt8) : match_ re text = true ↔
    ∃ pre mid post, text = pre ++ mid ++ post
      ∧ mid ∈ lang (if re.head? = some hat then re.tail else re)
      ∧ (re.head? = some hat → pre = [])
      ∧ (anchored (if re.head? = some hat then re.tail else re) = true → post = []) := by
  unfold match_
  split
  · rw [matchhere_iff]
    constructor
    · exact fun ⟨mid, post, htext, hmid, hend⟩ => ⟨[], mid, post, htext, hmid, fun _ => rfl, hend⟩
    · rintro ⟨pre, mid, post, htext, hmid, hpre, hend⟩
      exact ⟨mid, post, by simpa [hpre ‹_›] using htext, hmid, hend⟩
  · rw [search_iff]
    constructor
    · rintro ⟨pre, rest, rfl, mid, post, rfl, hmid, hend⟩
      exact ⟨pre, mid, post, (List.append_assoc ..).symm, hmid, fun h => absurd h ‹_›, hend⟩
    · rintro ⟨pre, mid, post, rfl, hmid, -, hend⟩
      exact ⟨pre, mid ++ post, List.append_assoc .., mid, post, rfl, hmid, hend⟩

/-! ## §4. The loop over the input. -/

/-- newline -/
def nl : UInt8 := '\n'.toUInt8

variable {pattern left file : List UInt8} {ls : List (List UInt8)}

/-- The inner loop of `grep` on the bytes from `p` on, `line` those that `strchr` has passed:
what is written, and the bytes from the last `p` on. -/
def scan (pattern : List UInt8) : List UInt8 → List UInt8 → List UInt8 × List UInt8
  | line, [] => ([], line)
  | line, c :: text =>
    if c = nl then
      let r := scan pattern [] text
      (if match_ pattern line then line ++ nl :: r.1 else r.1, r.2)
    else scan pattern (line ++ [c]) text

/-- `grep(pattern, fd)` with `left` at the start of `buf`: `read` returns `reads 0 + 1` bytes if there are so many and there
is room for them. -/
def grep (pattern : List UInt8) : Nat → (Nat → Nat) → List UInt8 → List UInt8 → Option (List UInt8)
  | 0, _, _, _ => none
  | fuel + 1, reads, left, file =>
    let n := min (reads 0 + 1) (1024 - left.length - 1)
    if file.take n = [] then some []
    else
      let r := scan pattern [] (left ++ file.take n)
      (grep pattern fuel (fun i => reads (i + 1)) r.2 (file.drop n)).map (r.1 ++ ·)

/-- The lines, each with its newline. -/
def unlines (ls : List (List UInt8)) : List UInt8 := ls.flatMap (· ++ [nl])

theorem unlines_cons (l : List UInt8) : unlines (l :: ls) = l ++ nl :: unlines ls := by
  simp [unlines]

/-- Bytes without newline in front of a text of lines are part of the first one. -/
theorem in_first_line {a x l y : List UInt8} (ha : nl ∉ a) (h : a ++ x = l ++ nl :: y) :
    ∃ w, l = a ++ w ∧ x = w ++ nl :: y := by
  rcases List.append_eq_append_iff.mp h with hw | ⟨w, rfl, hw⟩
  · exact hw
  cases w with
  | nil => exact ⟨[], by simp, hw.symm⟩
  | cons c w =>
    rw [← (List.cons.inj hw).1] at ha
    simp at ha

/-- A scan takes whole lines from the front. -/
theorem scan_lines (pattern file last text : List UInt8) (hlast : nl ∉ last) : ∀ {left : List UInt8} {ls : List (List UInt8)},
    nl ∉ left → (∀ l ∈ ls, nl ∉ l) → left ++ (text ++ file) = unlines ls ++ last →
    ∃ ls₁ ls₂, ls = ls₁ ++ ls₂ ∧ (scan pattern left text).1 = unlines (ls₁.filter (match_ pattern))
      ∧ nl ∉ (scan pattern left text).2 ∧ (scan pattern left text).2 ++ file = unlines ls₂ ++ last
      ∧ left ++ text = unlines ls₁ ++ (scan pattern left text).2 := by
  induction text with
  | nil => exact fun hleft _ hfile => ⟨[], _, rfl, rfl, hleft, hfile, by simp [scan, unlines]⟩
  | cons c text ih =>
    intro left ls hleft hls hfile
    rw [scan]
    split
    · rename_i hc
      rw [hc] at hfile
      cases ls with
      | nil =>
        have hin : nl ∈ unlines [] ++ last := hfile ▸ by simp
        exact absurd hin hlast
      | cons l ls =>
        simp only [List.forall_mem_cons] at hls
        rw [unlines_cons, List.append_assoc, List.cons_append] at hfile
        obtain ⟨w, rfl, hw⟩ := in_first_line hleft hfile
        cases w with
        | cons b w => simp [← (List.cons.inj hw).1] at hls
        | nil =>
          obtain ⟨ls₁, ls₂, rfl, hout, hno, hleft₂, hsplit⟩ := ih List.not_mem_nil hls.2 (List.cons.inj hw).2
          rw [List.append_nil]
          refine ⟨left :: ls₁, ls₂, rfl, ?_, hno, hleft₂, ?_⟩
          · rw [List.filter_cons]
            split
            · rw [unlines_cons, ← hout]
            · exact hout
          · rw [unlines_cons, List.append_assoc, List.cons_append, ← hsplit, hc]
            rfl
    · rename_i hc
      obtain ⟨ls₁, ls₂, hls', hout, hno, hleft₂, hsplit⟩ :=
        @ih (left ++ [c]) ls (by simpa [hleft] using Ne.symm hc) hls (by simpa using hfile)
      exact ⟨ls₁, ls₂, hls', hout, hno, hleft₂, by simpa using hsplit⟩

/-- The line fits in the buffer with its newline. -/
def short (l : List UInt8) : Bool := l.length ≤ 1022

/-- **What `grep` prints**, however `read` cuts the input: the matching ones of the lines before the first that does not fit
in the buffer.  A last line without newline is not looked at. -/
theorem grep_spec {last : List UInt8} (hlast : nl ∉ last) (fuel : Nat) : ∀ {reads : Nat → Nat} {left file : List UInt8}
    {ls : List (List UInt8)}, file.length < fuel → left.length ≤ 1023 → nl ∉ left → (∀ l ∈ ls, nl ∉ l) →
    left ++ file = unlines ls ++ last →
    grep pattern fuel reads left file = some (unlines ((ls.takeWhile short).filter (match_ pattern))) := by
  induction fuel with
  | zero => exact fun h => absurd h (Nat.not_lt_zero _)
  | succ fuel ih =>
    intro reads left file ls hfuel hroom hleft hls hfile
    rw [grep]
    generalize hn : min (reads 0 + 1) (1024 - left.length - 1) = n
    dsimp only
    split
    · -- the input ends, or the buffer is full of a line that is longer
      rename_i hnil
      cases ls with
      | nil => rfl
      | cons l ls =>
        rw [unlines_cons, List.append_assoc, List.cons_append] at hfile
        obtain ⟨w, rfl, hw⟩ := in_first_line hleft hfile
        have hlong : short (left ++ w) = false := by
          rcases List.take_eq_nil_iff.mp hnil with hzero | hempty
          · simp only [short, List.length_append, decide_eq_false_iff_not]
            omega
          · simp [hempty] at hw
        rw [List.takeWhile_cons, hlong]
        rfl
    · rename_i htake
      obtain ⟨ls₁, ls₂, rfl, hout, hno, hrest, hsplit⟩ := scan_lines pattern (file.drop n) last (left ++ file.take n) hlast
        List.not_mem_nil hls (by simpa using hfile)
      have hlen := congrArg List.length hsplit
      simp only [List.nil_append, List.length_append, List.length_take] at hlen
      -- the lines found were in the buffer
      have hshort : ∀ l ∈ ls₁, short l = true := by
        intro l hl
        have hle : l.length + 1 ≤ (unlines ls₁).length := by
          obtain ⟨us, vs, rfl⟩ := List.append_of_mem hl
          simp only [unlines, List.flatMap_append, List.flatMap_cons, List.length_append, List.length_singleton]
          omega
        simp only [short, decide_eq_true_eq]
        omega
      have hpos : 0 < (file.take n).length := List.length_pos_iff.mpr htake
      rw [List.length_take] at hpos
      rw [ih (by rw [List.length_drop]; omega) (by omega) hno (fun l hl => hls l (List.mem_append_right _ hl)) hrest, hout,
        List.takeWhile_append_of_pos hshort]
      simp [unlines]

/-- The lines that match, each as it stands in the file. -/
def matching (pattern : List UInt8) (ls : List (List UInt8)) (last : List UInt8) : List UInt8 :=
  unlines (ls.filter (match_ pattern)) ++ if match_ pattern last then last else []

/-- **When `grep` prints the matching lines** of a file of the lines `ls` and the bytes `last` after the last newline,
however `read` cuts the input: exactly if neither a line from the first one of more than 1022 bytes on nor a last line
without newline matches. -/
theorem prints_matching (pattern last : List UInt8) (reads : Nat → Nat) {ls : List (List UInt8)} (hls : ∀ l ∈ ls, nl ∉ l)
    (hlast : nl ∉ last) {fuel : Nat} (hfuel : (unlines ls ++ last).length < fuel) :
    grep pattern fuel reads [] (unlines ls ++ last) = some (matching pattern ls last)
      ↔ (∀ l ∈ ls.dropWhile short, match_ pattern l = false) ∧ (last ≠ [] → match_ pattern last = false) := by
  rw [grep_spec hlast fuel hfuel (Nat.zero_le _) List.not_mem_nil hls rfl, Option.some.injEq, matching]
  have hsplit : ls.filter (match_ pattern)
      = (ls.takeWhile short).filter (match_ pattern) ++ (ls.dropWhile short).filter (match_ pattern) := by
    rw [← List.filter_append, List.takeWhile_append_dropWhile]
  have hall : unlines ((ls.takeWhile short).filter (match_ pattern) ++ (ls.dropWhile short).filter (match_ pattern))
      = unlines ((ls.takeWhile short).filter (match_ pattern)) ++ unlines ((ls.dropWhile short).filter (match_ pattern)) :=
    List.flatMap_append
  rw [hsplit, hall, List.append_assoc, List.self_eq_append_right, List.append_eq_nil_iff]
  refine and_congr ?_ ?_
  · -- a line that matches is at least a newline
    have hnil : ∀ ms, unlines ms = [] ↔ ms = [] := by
      intro ms
      cases ms with
      | nil => simp [unlines]
      | cons m ms => simp [unlines_cons]
    rw [hnil, List.filter_eq_nil_iff]
    simp
  · cases match_ pattern last <;> simp

/-- The long line and the rest of a line at the end do not match. -/
theorem prints_matching_two :
    grep [98] 1100 (fun _ => 200) [] (unlines [[97, 98], [98], List.replicate 1030 97] ++ [97])
      = some (matching [98] [[97, 98], [98], List.replicate 1030 97] [97]) := by
  refine (prints_matching [98] [97] (fun _ => 200) (by decide +kernel) (by decide) (by decide +kernel)).mpr ?_
  decide +kernel

/-- **A last line without newline** is not printed. -/
theorem last_line_lost : matching [97] [] [97] = [97] ∧ ∀ reads fuel, grep [97] (fuel + 2) reads [] [97] = some [] := by
  refine ⟨by decide, fun reads fuel => ?_⟩
  have hn : ∀ n, ([97] : List UInt8).take (min (n + 1) 1023) = [97] := fun n => by
    rw [List.take_of_length_le]
    simp only [List.length_singleton]
    omega
  have hc : (97 : UInt8) ≠ nl := by decide
  simp [grep, hn, scan, hc]

end Xv6.Grep
