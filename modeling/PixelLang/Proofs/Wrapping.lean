import PixelLang.Proofs.Likeness.Runs

/-!
# Wrapping

How a program is wrapped into rows does not matter, nor where blank cells stand in it. Images that
show the same colours in the same order, blank cells left out, give the same code and the same
diagnostics (`Language.evaluate_of_colours_eq`); only the places in the diagnostics differ.
-/

set_option autoImplicit false

namespace PixelLang

/-! ## Leaving out places -/

def Pixel.unplaced (p : Pixel) : Pixel := { p with x := 0, y := 0 }

/-- The problem without the places that its message quotes. -/
def Problem.unplaced : Problem → Problem
  | leftOver p => leftOver p.unplaced
  | notInNumber p => notInNumber p.unplaced
  | notBoolean p => notBoolean p.unplaced
  | unresolved p => unresolved p.unplaced
  | notFunction p => notFunction p.unplaced
  | notStruct p => notStruct p.unplaced
  | notName p => notName p.unplaced
  | repeatedName p => repeatedName p.unplaced
  | trailing p k => trailing p.unplaced k
  | alreadyDefined p m => alreadyDefined p.unplaced m
  | missingValue p => missingValue p.unplaced
  | notAssignable m p => notAssignable m p.unplaced
  | unclosedBlock _ _ => unclosedBlock 0 0
  | problem => problem

theorem Problem.kind_unplaced (problem : Problem) : problem.unplaced.kind = problem.kind := by
  cases problem <;> rfl

/-- Two diagnostics of the same token. They have the same problem, but for the places it quotes. -/
structure Diagnostic.SameToken (d d' : Diagnostic) : Prop where
  kind : d.kind = d'.kind
  tokenIndex : d.tokenIndex = d'.tokenIndex
  keyword : d.keyword = d'.keyword
  template : d.template = d'.template
  problem : d.problem.unplaced = d'.problem.unplaced

namespace Likeness

/-- Pixels may differ in their places, and nothing else may differ. -/
def anywhere : Likeness where
  pixel p q := p.unplaced = q.unplaced
  key := Eq
  text := Eq
  place _ _ := True
  kind_eq h := (congrArg Pixel.kind h :)
  key_hex h := (congrArg Pixel.hex h :)
  key_eq_iff hk hm := by rw [hk, hm]
  text_identifier h := (congrArg Pixel.identifier h :)
  text_refl _ := rfl
  text_append hs ht := by rw [hs, ht]
  text_isEmpty h := by rw [h]
  place_pixel _ := trivial
  place_zero := trivial

theorem eq_of_overloads {o o' : Overload} (h : anywhere.Overloads o o') : o = o' := by
  have hparameters : o.parameters = o'.parameters := by
    rw [← List.forall₂_eq_eq_eq]
    refine List.Forall₂.imp (fun p p' hp => ?_) h
    obtain ⟨vararg, hname⟩ := hp
    cases hname with
    | none => rfl
    | some hname => rw [show _ = _ from hname]
  cases o
  cases o'
  exact congrArg Overload.mk hparameters

theorem eq_of_members {m m' : Member} (h : anywhere.Members m m') : m = m' := by
  cases h with
  | var hname => exact congrArg Member.var hname
  | const hname => exact congrArg Member.const hname
  | func library hname hos =>
    have hoverloads := List.Forall₂.imp (fun _ _ ho => eq_of_overloads ho) hos
    rw [List.forall₂_eq_eq_eq] at hoverloads
    rw [show _ = _ from hname, hoverloads]
  | struct hname hbuild => rw [show _ = _ from hname, eq_of_overloads hbuild]

theorem unplaced_eq {a b : Problem} (h : anywhere.Problems a b) : a.unplaced = b.unplaced := by
  cases h with
  | same => rfl
  | leftOver hp => exact congrArg Problem.leftOver hp
  | notInNumber hp => exact congrArg Problem.notInNumber hp
  | notBoolean hp => exact congrArg Problem.notBoolean hp
  | unresolved hp => exact congrArg Problem.unresolved hp
  | notFunction hp => exact congrArg Problem.notFunction hp
  | notStruct hp => exact congrArg Problem.notStruct hp
  | wrongArity found hm hname => rw [eq_of_members hm, show _ = _ from hname]
  | notName hp => exact congrArg Problem.notName hp
  | repeatedName hp => exact congrArg Problem.repeatedName hp
  | trailing k hp => exact congrArg (Problem.trailing · k) hp
  | alreadyDefined hp hm => exact congrArg₂ Problem.alreadyDefined hp (eq_of_members hm)
  | missingValue hp => exact congrArg Problem.missingValue hp
  | notAssignable hp hm => exact congrArg₂ Problem.notAssignable (eq_of_members hm) hp
  | unclosedBlock => rfl

theorem Diagnostics.sameToken {d d' : Diagnostic} (h : anywhere.Diagnostics d d') :
    d.SameToken d' := by
  have hproblem := unplaced_eq h.problem
  refine ⟨?_, h.tokenIndex, h.keyword, h.template, hproblem⟩
  rw [Diagnostic.kind, Diagnostic.kind, ← Problem.kind_unplaced, hproblem, Problem.kind_unplaced]

end Likeness

/-! ## Images -/

namespace Language

/-- The colours of an image, row by row, blank cells left out. -/
def colours (l : Language) (img : Image) : List Colour :=
  img.cells.filter fun c => classify l.scheme l.catalog c != .blank

theorem map_unplaced_pixels (l : Language) (img : Image) :
    (l.pixels img).map Pixel.unplaced = (l.colours img).map (l.pixel 0 0) := by
  have hcells : (l.cells img).map Pixel.unplaced = img.cells.map (l.pixel 0 0) := by
    apply List.ext_getElem?
    intro i
    simp only [cells, Image.places, List.getElem?_map, List.getElem?_mapIdx, Option.map_map]
    rfl
  have hpixels : (l.pixels img).map Pixel.unplaced =
      ((l.cells img).map Pixel.unplaced).filter (!·.isBlank) := by
    rw [List.filter_map]
    rfl
  rw [hpixels, hcells, List.filter_map]
  rfl

theorem forall₂_pixels {l : Language} {img img' : Image} (h : l.colours img = l.colours img') :
    List.Forall₂ Likeness.anywhere.pixel (l.pixels img) (l.pixels img') := by
  have hmap : (l.pixels img).map Pixel.unplaced = (l.pixels img').map Pixel.unplaced := by
    rw [map_unplaced_pixels, map_unplaced_pixels, h]
  rw [← List.forall₂_eq_eq_eq, List.forall₂_map_left_iff, List.forall₂_map_right_iff] at hmap
  exact hmap

/-- **Layout carries no meaning.** Two images of any sizes that show the same colours, row by row
and blank cells left out, give the same code, and one is invalidated if the other is. Their
diagnostics are the same in number and order, and agree in all but their places and the places they
quote. -/
theorem evaluate_of_colours_eq (l : Language) (img img' : Image)
    (h : l.colours img = l.colours img') :
    (l.evaluate img).code = (l.evaluate img').code ∧
      (l.evaluate img).invalidated = (l.evaluate img').invalidated ∧
      List.Forall₂ Diagnostic.SameToken (l.evaluate img).diagnostics
        (l.evaluate img').diagnostics := by
  have hglobals : List.Forall₂ Likeness.anywhere.Bound l.globalBindings.entries
      l.globalBindings.entries := List.forall₂_same.mpr fun entry _ => ⟨rfl, .refl entry.2⟩
  obtain ⟨hcode, hinvalidated, hdiagnostics⟩ :=
    Likeness.evaluatePixels_alike (forall₂_pixels h) hglobals
  exact ⟨hcode, hinvalidated, hdiagnostics.imp fun _ _ hd => hd.sameToken⟩

/-- A language that can only print. -/
def printOnly : Language :=
  ⟨.set .empty Keyword.print.key (.ofColours [Scheme.solid 0xFF0066]), .standard, []⟩

/-- Prints a name that is not bound, in one row. -/
def printAcross : Image := .ofRows [[Scheme.solid 0xFF0066, Scheme.solid 0xF04080]]

/-- The same in two rows, with blank cells around the name. -/
def printDown : Image :=
  .ofRows [[Scheme.solid 0xFF0066], [.white, .white, Scheme.solid 0xF04080, .transparent]]

theorem evaluate_printDown :
    printOnly.colours printAcross = printOnly.colours printDown ∧
      (printOnly.evaluate printAcross).diagnostics.map (fun d => (d.x, d.y)) = [(1, 0)] ∧
      (printOnly.evaluate printDown).diagnostics.map (fun d => (d.x, d.y)) = [(2, 1)] ∧
      (printOnly.evaluate printAcross).code = (printOnly.evaluate printDown).code ∧
      (printOnly.evaluate printAcross).invalidated = (printOnly.evaluate printDown).invalidated ∧
      List.Forall₂ Diagnostic.SameToken (printOnly.evaluate printAcross).diagnostics
        (printOnly.evaluate printDown).diagnostics :=
  have h : printOnly.colours printAcross = printOnly.colours printDown := by decide +kernel
  ⟨h, by decide +kernel, by decide +kernel, evaluate_of_colours_eq printOnly _ _ h⟩

end Language

end PixelLang
