import PixelLang.Proofs.Identities
import PixelLang.Proofs.Lines
import PixelLang.Proofs.Painting
import PixelLang.Scheme.Source

/-!
# Scheme files one after the other

Two scheme files with a line feed between them are one scheme file. Its lines are the lines of the
first and then those of the second, which are numbered on.

* `Text.lines_append`: the lines of the whole are the parts of the first text and the lines of the
  second. The part after a last line feed is empty, so that it is skipped
  (`Scheme.parseLines_splitOn`).
* `Scheme.Overlaid`: what comes of reading lines after others. A fault is numbered on, and a scheme
  is laid over the one before it. Each line keeps that (`Scheme.overlaid_parseLines`).
* `Scheme.Proper`: the entries that a line can give. All entries of a file are such
  (`Scheme.proper_of_parse`).
* `Scheme.parse_concatenated`: the second file overrides the first, unless a line is wrong.
-/

set_option autoImplicit false

namespace PixelLang

/-! ## The lines of two texts -/

namespace Text

theorem lines_append (xs ys : List Char) :
    lines (xs ++ '\n' :: ys) = xs.splitOn '\n' ++ lines ys := by
  have hne : ys.splitOn '\n' ≠ [] := List.splitOn_ne_nil _ _
  have hlast : (xs.splitOn '\n' ++ ys.splitOn '\n').getLast? = (ys.splitOn '\n').getLast? := by
    rw [List.getLast?_append, List.getLast?_eq_some_getLast hne, Option.some_or]
  rw [lines, lines, fields_eq_splitOn, fields_eq_splitOn, List.splitOn_append_cons_self]
  simp only [hlast, List.dropLast_append_of_ne_nil hne]
  split <;> rfl

/-- The parts of a text are its lines, and one empty part more after a last line feed. -/
theorem splitOn_eq_lines_or (cs : List Char) :
    cs.splitOn '\n' = lines cs ∨ cs.splitOn '\n' = lines cs ++ [[]] := by
  rw [lines, fields_eq_splitOn]
  split
  · rename_i hlast
    exact .inr (List.dropLast_append_getLast? _ hlast).symm
  · exact .inl rfl

theorem trim_eq_self {cs : List Char} (h : IsTrim cs cs) : trim cs = cs := by
  have hhead : cs.dropWhile isBlank = cs := by
    cases cs with
    | nil => rfl
    | cons ch cs => rw [List.dropWhile_cons, h.head ch rfl]; rfl
  have hlast : cs.reverse.dropWhile isBlank = cs.reverse := by
    cases hreverse : cs.reverse with
    | nil => rfl
    | cons ch rest =>
      have hch : cs.getLast? = some ch := by
        rw [← List.head?_reverse, hreverse]
        rfl
      rw [List.dropWhile_cons, h.last ch hch]
      rfl
  rw [trim, hhead, trimEnd, hlast, List.reverse_reverse]

/-- A text that was trimmed has no more blanks to lose. -/
theorem trim_trim (cs : List Char) : trim (trim cs) = trim cs := by
  have h := isTrim_trim cs
  exact trim_eq_self ⟨⟨[], [], by simp, by simp⟩, h.head, h.last⟩

end Text

/-! ## Numbered on -/

namespace SchemeFault

/-- The fault with `count` more lines before its line. -/
def later (f : SchemeFault) (count : Nat) : SchemeFault := { f with line := f.line + count }

end SchemeFault

namespace Scheme

theorem parseLines_append (s : Scheme) (number : Nat) (xs ys : List (List Char)) :
    parseLines s number (xs ++ ys) =
      (parseLines s number xs).bind fun t => parseLines t (number + xs.length) ys := by
  induction xs generalizing s number with
  | nil => rfl
  | cons line rest ih =>
    have hnumber : number + (line :: rest).length = number + 1 + rest.length := by
      rw [List.length_cons, Nat.add_assoc, Nat.add_comm 1]
    rw [hnumber, List.cons_append, parseLines, parseLines]
    split
    · exact ih s (number + 1)
    · cases hentry : parseEntry (Text.trim line) with
      | error fault => rfl
      | ok entry => exact ih (s.set entry.1 entry.2) (number + 1)

/-- An empty part after the last line feed changes nothing. -/
theorem parseLines_splitOn (s : Scheme) (number : Nat) (cs : List Char) :
    parseLines s number (cs.splitOn '\n') = parseLines s number (Text.lines cs) := by
  rcases Text.splitOn_eq_lines_or cs with h | h
  · rw [h]
  · have hempty (t : Scheme) (n : Nat) : parseLines t n [[]] = .ok t := rfl
    rw [h, parseLines_append]
    cases parseLines s number (Text.lines cs) with
    | error fault => rfl
    | ok t => exact hempty t _

/-- The second file is read into what the first gives, with the numbers of the lines going on. -/
theorem parse_append (a b : String) :
    parse (a ++ "\n" ++ b) = (parse a).bind fun s =>
      parseLines s (1 + (a.toList.count '\n' + 1)) (Text.lines b.toList) := by
  have htext : (a ++ "\n" ++ b).toList = a.toList ++ '\n' :: b.toList := by simp
  rw [parse, htext, Text.lines_append, parseLines_append, parseLines_splitOn,
    Text.length_splitOn]
  rfl

/-! ## Laid over -/

/-- What comes of reading lines after `count` others that gave the scheme `base`, beside what comes
of reading them alone. -/
inductive Overlaid (base : Scheme) (count : Nat) :
    Except SchemeFault Scheme → Except SchemeFault Scheme → Prop
  | error (fault : SchemeFault) : Overlaid base count (.error fault) (.error (fault.later count))
  | ok {s t : Scheme} (covers : ∀ key, t.get? key = (s.get? key).or (base.get? key)) :
    Overlaid base count (.ok s) (.ok t)

theorem overlaid_parseLines {base s t : Scheme}
    (h : ∀ key, t.get? key = (s.get? key).or (base.get? key)) (number count : Nat)
    (lines : List (List Char)) :
    Overlaid base count (parseLines s number lines) (parseLines t (number + count) lines) := by
  induction lines generalizing s t number with
  | nil => exact .ok h
  | cons line rest ih =>
    have hnumber : number + count + 1 = number + 1 + count := Nat.add_right_comm ..
    rw [parseLines, parseLines, hnumber]
    split
    · exact ih h (number + 1)
    · cases hentry : parseEntry (Text.trim line) with
      | error fault => exact .error ⟨number, fault⟩
      | ok entry =>
        -- the entry is set in both, so it still covers what `base` has for its key
        refine ih (fun key => ?_) (number + 1)
        rw [get?_set, get?_set, h]
        split <;> rfl

section

variable {a b : String} {s : Scheme} (ha : parse a = .ok s)
include ha

/-- After a good file, the second is read as it is read alone, over the entries of the first. -/
theorem overlaid_parse (b : String) :
    Overlaid s (1 + a.toList.count '\n') (parse b) (parse (a ++ "\n" ++ b)) := by
  rw [parse_append, ha, Nat.add_comm _ 1]
  exact overlaid_parseLines (fun _ => rfl) 1 _ _

theorem parse_eq_later {fault : SchemeFault} (hb : parse b = .error fault) :
    parse (a ++ "\n" ++ b) = .error (fault.later (1 + a.toList.count '\n')) := by
  have hoverlaid := overlaid_parse ha b
  rw [hb] at hoverlaid
  generalize parse (a ++ "\n" ++ b) = whole at hoverlaid ⊢
  cases hoverlaid with
  | error => rfl

theorem exists_parse_covers {t : Scheme} (hb : parse b = .ok t) :
    ∃ u, parse (a ++ "\n" ++ b) = .ok u ∧
      ∀ key, u.get? key = (t.get? key).or (s.get? key) := by
  have hoverlaid := overlaid_parse ha b
  rw [hb] at hoverlaid
  generalize parse (a ++ "\n" ++ b) = whole at hoverlaid ⊢
  cases hoverlaid with
  | ok covers => exact ⟨_, rfl, covers⟩

end

end Scheme

/-! ## Entries of a file -/

/-- A swatch that is read holds a colour, unless it is empty. -/
theorem Swatch.exists_holds {text : List Char} {swatch : Swatch} (h : parse text = .ok swatch)
    (hne : swatch.isEmpty = false) : ∃ c, swatch.holds c := by
  obtain ⟨colours, -, hcolours⟩ := Colour.bind_eq_ok_iff.1 h
  obtain rfl : ofColours colours = swatch := Except.ok.inj hcolours
  have hlists := lists_ofColours colours
  obtain ⟨hex, hhex⟩ := List.exists_mem_of_ne_nil _ (List.isEmpty_eq_false_iff.1 hne)
  obtain ⟨c, hc, -⟩ := List.mem_map.1 ((hlists.mem hex).1 hhex)
  exact ⟨c, (hlists.holds_iff c).2 hc⟩

namespace Scheme

/-- A property of schemes that every entry keeps holds of what is read. -/
theorem parseLines_induction {P : Scheme → Prop} {lines : List (List Char)} {number : Nat}
    {s t : Scheme}
    (hset : ∀ (s : Scheme) (line : List Char) (key : String) (swatch : Swatch), P s →
      parseEntry (Text.trim line) = .ok (key, swatch) → P (s.set key swatch))
    (hs : P s) (h : parseLines s number lines = .ok t) : P t := by
  induction lines generalizing s number with
  | nil =>
    obtain rfl : s = t := Except.ok.inj h
    exact hs
  | cons line rest ih =>
    rw [parseLines] at h
    split at h
    · exact ih hs h
    · cases hentry : parseEntry (Text.trim line) with
      | error fault => simp [hentry] at h
      | ok entry =>
        rw [hentry] at h
        exact ih (hset s line entry.1 entry.2 hs hentry) h

/-- The entries that a line of a scheme file can give. -/
structure Proper (entry : String × Swatch) : Prop where
  key_ne_empty : entry.1 ≠ ""
  key_trimmed : Text.trim entry.1.toList = entry.1.toList
  coloured : ∃ c, entry.2.holds c

theorem proper_of_parseEntry {line : List Char} {entry : String × Swatch}
    (h : parseEntry line = .ok entry) : Proper entry := by
  unfold parseEntry at h
  cases hcut : Text.cut '=' line with
  | none => simp [hcut] at h
  | some parts =>
    simp only [hcut] at h
    split at h
    · exact absurd h (by simp)
    · rename_i hkey
      cases hparse : Swatch.parse parts.2 with
      | error fault => simp [hparse] at h
      | ok swatch =>
        simp only [hparse] at h
        split at h
        · exact absurd h (by simp)
        · rename_i hempty
          obtain rfl := Except.ok.inj h
          refine ⟨fun heq => hkey (String.isEmpty_iff.2 heq), ?_, ?_⟩
          · rw [String.toList_ofList, Text.trim_trim]
          · exact Swatch.exists_holds hparse (Bool.eq_false_iff.2 hempty)

theorem proper_of_parse {source : String} {s : Scheme} (h : parse source = .ok s) :
    ∀ entry ∈ s.entries, Proper entry := by
  refine parseLines_induction (P := fun s => ∀ entry ∈ s.entries, Proper entry) ?_ ?_ h
  · intro s line key swatch hs hentry entry hmem
    rcases mem_insertEntry hmem with rfl | hmem
    · exact proper_of_parseEntry hentry
    · exact hs entry hmem
  · exact fun entry hmem => absurd hmem List.not_mem_nil

/-! ## One file after the other -/

/-- **Two scheme files, one after the other.** A fault of the first file is the fault of both. After
a good first file, a fault of the second has the number of its line increased by the line feeds of
the first and the one between. Otherwise the entries are those of the second file, and those of the
first for whose keys the second has none. All entries of a file are proper, and a key has one. -/
theorem parse_concatenated (a b : String) :
    (∀ fault, parse a = .error fault → parse (a ++ "\n" ++ b) = .error fault) ∧
    (∀ s fault, parse a = .ok s → parse b = .error fault →
      ∃ later, parse (a ++ "\n" ++ b) = .error later ∧
        later.line = fault.line + (1 + a.toList.count '\n') ∧ later.fault = fault.fault ∧
        fault.message = "Line " ++ toString fault.line ++ ": " ++ fault.fault.message ∧
        later.message = "Line " ++ toString later.line ++ ": " ++ fault.fault.message ∧
        later.help = fault.help) ∧
    (∀ s t, parse a = .ok s → parse b = .ok t →
      ∃ u, parse (a ++ "\n" ++ b) = .ok u ∧
        ∀ key swatch, (key, swatch) ∈ u.entries ↔
          (key, swatch) ∈ t.entries ∨
            (key, swatch) ∈ s.entries ∧ ∀ other, (key, other) ∉ t.entries) ∧
    ∀ source s, parse source = .ok s →
      (s.entries.map Prod.fst).Nodup ∧ ∀ entry ∈ s.entries, Proper entry := by
  refine ⟨fun fault ha => ?_, fun s fault ha hb => ?_, fun s t ha hb => ?_, fun source s h => ?_⟩
  · rw [parse_append, ha]
    rfl
  · exact ⟨_, parse_eq_later ha hb, rfl, rfl, rfl, rfl, rfl⟩
  · obtain ⟨u, hu, hcovers⟩ := exists_parse_covers ha hb
    refine ⟨u, hu, fun key swatch => ?_⟩
    simp only [mem_entries_iff, hcovers, Option.or_eq_some_iff, Option.eq_none_iff_forall_ne_some]
    exact or_congr_right and_comm
  · exact ⟨List.pairwise_map.2 (s.ordered.imp String.ne_of_lt), proper_of_parse h⟩

-- the second line of a file that comes after two line feeds and the one between
example : parse ("# colours\nif=FFFF00\n" ++ "\n" ++ "print=000000\r\nif") =
    .error ⟨5, .noEquals "if"⟩ := by
  rfl

end Scheme

end PixelLang
