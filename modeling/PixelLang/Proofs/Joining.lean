import Mathlib.Data.List.Chain
import PixelLang.Proofs.Calls

/-!
# Dots between pixels

A dotted name is read as a sequence of pixels without the dots that join them. A dot takes the next
pixel as a member whatever it is, so that a name which starts with a dot, or in which one dot
follows another, has dots among its own pixels.

* `isChain_linkPixels_iff`: after a pixel that is no dot, the members are no dots exactly where no
  two dots of the run are neighbours.
* `Reader.sequence_joined`: what is read as a sequence, and when it is free of dots.
-/

set_option autoImplicit false

namespace PixelLang

/-- One of two neighbours is no dot. -/
def Pixel.Apart (p q : Pixel) : Prop := ¬(p.isDot ∧ q.isDot)

instance (p q : Pixel) : Decidable (p.Apart q) := inferInstanceAs (Decidable ¬_)

theorem isChain_linkPixels_iff {p : Pixel} {links : List (Pixel × Pixel)} (hp : ¬p.isDot)
    (hdots : ∀ link ∈ links, link.1.isDot) :
    List.IsChain Pixel.Apart (p :: linkPixels links) ↔ ∀ link ∈ links, ¬link.2.isDot := by
  induction links generalizing p with
  | nil => simp [linkPixels]
  | cons link links ih =>
    have hlink : link.1.isDot := hdots link (.head _)
    have hpixels : linkPixels (link :: links) = link.1 :: link.2 :: linkPixels links := rfl
    rw [hpixels, List.isChain_cons_cons, List.isChain_cons_cons, List.forall_mem_cons]
    have hfirst : p.Apart link.1 := fun h => hp h.1
    have hmember : link.1.Apart link.2 ↔ ¬link.2.isDot := by simp [Pixel.Apart, hlink]
    rw [hmember]
    constructor
    · rintro ⟨-, hnext, hchain⟩
      exact ⟨hnext, (ih hnext fun link hmem => hdots link (.tail _ hmem)).1 hchain⟩
    · rintro ⟨hnext, hrest⟩
      exact ⟨hfirst, hnext, (ih hnext fun link hmem => hdots link (.tail _ hmem)).2 hrest⟩

namespace DottedName

/-- A name has no dots of its own if it does not start with one and has no two in a row. -/
theorem no_dots_iff (n : DottedName) :
    (∀ p ∈ n.sequence.pixels, ¬p.isDot) ↔
      ¬n.first.isDot ∧ List.IsChain Pixel.Apart n.pixels := by
  have hstored : (∀ p ∈ n.sequence.pixels, ¬p.isDot) ↔
      ¬n.first.isDot ∧ ∀ link ∈ n.links, ¬link.2.isDot := by
    rw [Sequence.pixels, List.forall_mem_cons]
    exact and_congr_right fun _ => List.forall_mem_map
  rw [hstored]
  exact and_congr_right fun hfirst => (isChain_linkPixels_iff hfirst n.isDot).symm

end DottedName

/-- After the run, no dot is left over. -/
theorem not_isDot_of_ends {rest : List Pixel} (hends : joins rest = false)
    (hlone : isLoneDot rest = false) {p : Pixel} (hp : rest.head? = some p) : ¬p.isDot := by
  obtain _ | ⟨q, _ | ⟨_, _⟩⟩ := rest
  · simp at hp
  · obtain rfl : q = p := by simpa using hp
    simpa [isLoneDot] using hlone
  · obtain rfl : q = p := by simpa using hp
    simpa [joins] using hends

namespace Reader

/-- **Dots join.** A sequence that is read without a report has been read with one dot between any
two of its pixels and nothing else, and no dot comes next. Its pixels are no dots exactly where the
pixels read do not start with a dot and have no two dots in a row. -/
theorem sequence_joined {r t : Reader} {s : Sequence} (h : r.nextSequence = (some s, t))
    (hquiet : t.diagnostics = r.diagnostics) :
    ∃ n : DottedName, n.sequence = s ∧ r.remaining = n.pixels ++ t.remaining ∧
      (∀ p, t.peek = some p → ¬p.isDot) ∧
      ((∀ p ∈ s.pixels, ¬p.isDot) ↔ ¬s.first.isDot ∧ List.IsChain Pixel.Apart n.pixels) := by
  cases hpixels : r.remaining with
  | nil => simp [nextSequence, hpixels] at h
  | cons first rest =>
    obtain ⟨n, rest', -, hleads⟩ := DottedName.exists_leads first rest
    rw [← hpixels] at hleads
    obtain ⟨t', ht', hremaining, hproblems⟩ := hleads.nextSequence
    obtain ⟨hs, rfl⟩ : some n.sequence = some s ∧ t' = t := Prod.mk.inj (ht'.symm.trans h)
    obtain rfl := Option.some.inj hs
    -- a dot that is left over would have been reported
    have hlone : isLoneDot rest' = false := by
      have hsame : t'.problems = r.problems := by simp only [problems, hquiet]
      cases hdot : isLoneDot rest' with
      | false => rfl
      | true => simp [hsame, hdot] at hproblems
    rw [hlone] at hremaining
    refine ⟨n, rfl, ?_, fun p hp => ?_, n.no_dots_iff⟩
    · rw [hremaining, ← hpixels]
      exact hleads.split
    · rw [peek_eq_head?, hremaining] at hp
      exact not_isDot_of_ends hleads.ends hlone hp

/-- A name, two dots in a row, and another name. -/
def doubledDot : Reader :=
  ofPixels none [objectPixel, dotPixel 1, dotPixel 2, methodPixel]

/-- The second of two dots is read as a member. -/
theorem joined_doubledDot :
    doubledDot.nextSequence = (some ⟨objectPixel, [dotPixel 2]⟩, doubledDot.advance 3) ∧
      ∃ n : DottedName, n.sequence = ⟨objectPixel, [dotPixel 2]⟩ ∧
        doubledDot.remaining = n.pixels ++ [methodPixel] ∧ ¬List.IsChain Pixel.Apart n.pixels := by
  have hread : doubledDot.nextSequence =
      (some ⟨objectPixel, [dotPixel 2]⟩, doubledDot.advance 3) := by decide
  obtain ⟨n, hn, hremaining, -, hdots⟩ := sequence_joined hread rfl
  refine ⟨hread, n, hn, hremaining, fun hchain => ?_⟩
  exact hdots.2 ⟨by decide, hchain⟩ (dotPixel 2) (by decide) rfl

end Reader

end PixelLang
