import PixelLang.Proofs.Spelling

/-!
# What code begins with

Lines are indented with spaces, and no code begins with a space by itself: it begins with a fixed
text, an identifier, a literal, or with the target of a library function. So the spaces in front of
a line are its indentation, unless a target begins with a space (`Language.flush_text`).
-/

set_option autoImplicit false

namespace PixelLang

open Reader

namespace Text

/-- The text does not begin with a space. -/
def Flush (s : String) : Prop := s.toList.head? ≠ some ' '

instance (s : String) : Decidable (Flush s) := inferInstanceAs (Decidable (_ ≠ _))

theorem flush_empty : Flush "" := by decide

variable {s t : String}

theorem Flush.append (hs : Flush s) (ht : Flush t) : Flush (s ++ t) := by
  intro h
  rw [String.toList_append, List.head?_append, Option.or_eq_some_iff] at h
  rcases h with h | ⟨-, h⟩
  · exact hs h
  · exact ht h

theorem Flush.append_of_ne (hs : Flush s) (hne : s ≠ "") : Flush (s ++ t) := by
  intro h
  rw [String.toList_append, List.head?_append_of_ne_nil] at h
  · exact hs h
  · exact fun hnil => hne (String.toList_eq_nil_iff.1 hnil)

/-- Texts that are not empty begin with the first of them, whatever separates them. -/
theorem flush_intercalate_of_ne {texts : List String}
    (h : ∀ text ∈ texts, Flush text ∧ text ≠ "") : Flush (s.intercalate texts) := by
  cases texts with
  | nil => exact flush_empty
  | cons text texts =>
    obtain ⟨hflush, hne⟩ := h text (.head _)
    cases texts with
    | nil => simpa using hflush
    | cons next texts =>
      rw [String.intercalate_cons_cons, String.append_assoc]
      exact hflush.append_of_ne hne

theorem flush_identifier (p : Pixel) : Flush p.identifier :=
  Flush.append_of_ne (s := "_") (by decide) (by decide)

end Text

open Text

/-- The name does not begin with a space, and only the name of a function can be empty. -/
def Member.IsFlush (m : Member) : Prop := Flush m.name ∧ (m.name = "" → m.isFunction = true)

/-! ## Expressions -/

theorem flush_coded {scope : Scope} (hscope : scope.AllMembers Member.IsFlush) :
    scope.Coded Flush where
  boolean value := by cases value <;> decide
  identifier := flush_identifier
  member hm := (hscope.of_member? hm).1
  dotted := intercalate_of_append flush_empty Flush.append (by decide)
  empty := flush_empty
  string r := by
    show (String.ofList ('"' :: _)).toList.head? ≠ some ' '
    rw [String.toList_ofList]
    simp
  number h := by
    intro hhead
    refine forall_mem_readNumber (P := (· ≠ ' ')) h (fun code hfrom _ heq => ?_) ' '
      (List.mem_of_head? hhead) rfl
    have hspace : (charOf code).toNat = 32 := by rw [heq]; rfl
    rw [toNat_charOf] at hspace
    omega
  symbol op := by cases op <;> decide
  applied {name arguments} h _ := by
    have hopen : Flush (name ++ "(") := h.append (by decide)
    rw [Expression.applied, String.append_assoc]
    exact hopen.append_of_ne (by simp)
  compound {texts} h := by
    refine flush_intercalate_of_ne fun text htext => ?_
    obtain ⟨hmem, hne⟩ := List.mem_filter.1 htext
    exact ⟨h text hmem, by simpa using hne⟩

/-! ## Statements -/

section
variable {ctx : Context} (hscope : ctx.scope.AllMembers Member.IsFlush)
include hscope

theorem flush_generateDeclare (r : Reader) : Flush (generateDeclare ctx r).1.code := by
  unfold generateDeclare
  rcases r.readName .declare 1 with ⟨_ | name, r'⟩
  · exact flush_empty
  · dsimp only
    split
    · exact Flush.append_of_ne (s := "fun ") (by decide) (by decide)
    · unfold declareVariable
      dsimp only
      split
      · rw [String.append_assoc, String.append_assoc]
        exact Flush.append_of_ne (s := "var ") (by decide) (by decide)
      · rename_i bound hbound
        -- a variable has a name, which stands in front of the space
        obtain ⟨hflush, hfunction⟩ := hscope.of_get? hbound
        have hne : bound ≠ "" := fun hnil => absurd (hfunction hnil) (by simp [Member.isFunction])
        rw [String.append_assoc]
        exact Flush.append_of_ne hflush hne
      · exact flush_empty

/-- Code begins with no space if no name in scope does. -/
theorem flush_generate (k : Keyword) (r : Reader) : Flush (k.generate ctx r).1.code := by
  have heval := (flush_coded hscope).eval r.next.2
  unfold Keyword.generate
  cases k with
  | declare => exact flush_generateDeclare hscope _
  | call =>
    show Flush (generateCall ctx r.next.2).1.code
    unfold generateCall
    split
    · exact flush_empty
    · exact (flush_coded hscope).evalAs_call _
  | forEach => exact heval.append (by decide)
  | ret =>
    show Flush (generateLeave ctx r.next.2).1.code
    unfold generateLeave
    split
    · unfold generateReturn
      dsimp only
      split
      · decide
      · exact Flush.append_of_ne (s := "return ") (by decide) (by decide)
    · exact (by decide : Flush "break")
    · exact flush_empty
  | blockOpen =>
    show Flush (openingCode ctx _)
    unfold openingCode
    repeat' split
    all_goals simp [Flush]
  | struct =>
    show Flush (generateStruct ctx r.next.2).1.code
    unfold generateStruct
    rcases r.next.2.readName .struct 1 with ⟨_ | name, r'⟩
    · exact flush_empty
    · dsimp only
      generalize Reader.readNames .struct 2 _ = fields
      split <;> simp [Flush]
  | ifThen | orElse | whileLoop | print | blockClose =>
    simp [Flush, Keyword.generator, generateIf, generateElse, generateWhile, generatePrint,
      generateClose]

end

namespace Language

/-- No library function has a target that begins with a space. -/
def TargetsFlush (l : Language) : Prop :=
  ∀ library ∈ l.libraries, ∀ f ∈ library.functions, Flush f.target

instance (l : Language) : Decidable l.TargetsFlush :=
  inferInstanceAs (Decidable (∀ library ∈ l.libraries, ∀ f ∈ library.functions, _))

/-- **No text begins with a space** that is not the first character of a target. -/
theorem flush_text {l : Language} {pixels : List Pixel} {v : Visit} (hv : v ∈ l.visits pixels)
    (hflush : l.TargetsFlush) : Flush v.text := by
  obtain ⟨i, hi⟩ := List.mem_iff_getElem?.1 hv
  have hscope : v.context.scope.AllMembers Member.IsFlush := by
    refine (invariant_allMembers ?_ ?_).state hi
    · intro p key m hnames
      rw [Member.IsFlush, hnames.name]
      refine ⟨flush_identifier p, fun hempty => ?_⟩
      simp [Pixel.identifier] at hempty
    · intro library hlibrary f hf
      exact ⟨hflush library hlibrary f hf, fun _ => rfl⟩
  rw [v.text_eq]
  split
  · exact flush_generate hscope _ _
  · simp [Flush, Keyword.comment]

end Language

end PixelLang
