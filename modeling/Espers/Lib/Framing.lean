import Mathlib.Data.List.Basic

/-!
# Streams of frames

A stream is read frame by frame.  A reader that never changes its mind when more of the stream
arrives (`FrameReader`) makes a plain parser (`parse`) that can be asked at any time what has
arrived so far.

* `parse_append` : what was parsed stays when more arrives.
* `parse_frames` : frames one after the other, and what follows them.
-/

namespace Framing

open List

/-- What a reader makes of the beginning of a stream: there is too little of it, it is refused, or
it begins with a frame. -/
inductive Outcome (β φ : Type*) where
  | short
  | refused
  | frame (f : φ) (rest : List β)

/-- A reader whose verdict stands when more of the stream arrives. -/
structure FrameReader (β φ : Type*) where
  read : List β → Outcome β φ
  frame_lt : ∀ {b : List β} {f : φ} {rest : List β}, read b = .frame f rest → rest.length < b.length
  frame_append : ∀ {b : List β} {f : φ} {rest : List β} (c : List β), read b = .frame f rest →
    read (b ++ c) = .frame f (rest ++ c)
  refused_append : ∀ {b : List β} (c : List β), read b = .refused → read (b ++ c) = .refused

/-- What is known of a stream: its frames, and whether what follows them is refused. -/
structure Parsed (φ : Type*) where
  frames : List φ
  refused : Bool

variable {β φ : Type*} {R : FrameReader β φ}

namespace FrameReader

/-- The frames of a stream. -/
def parse (R : FrameReader β φ) (b : List β) : Parsed φ :=
  match h : R.read b with
  | .short => ⟨[], false⟩
  | .refused => ⟨[], true⟩
  | .frame f rest =>
    have : rest.length < b.length := R.frame_lt h
    let p := R.parse rest
    ⟨f :: p.frames, p.refused⟩
termination_by b.length

theorem parse_of_short {b : List β} (h : R.read b = .short) : R.parse b = ⟨[], false⟩ := by
  rw [parse]
  split <;> simp_all

theorem parse_of_refused {b : List β} (h : R.read b = .refused) : R.parse b = ⟨[], true⟩ := by
  rw [parse]
  split <;> simp_all

theorem parse_of_frame {b rest : List β} {f : φ} (h : R.read b = .frame f rest) :
    R.parse b = ⟨f :: (R.parse rest).frames, (R.parse rest).refused⟩ := by
  rw [parse]
  split <;> simp_all

theorem parse_append (b c : List β) : (R.parse b).frames <+: (R.parse (b ++ c)).frames ∧
      ((R.parse b).refused = true → (R.parse (b ++ c)).refused = true) := by
  induction hn : b.length using Nat.strongRecOn generalizing b with
  | ind n ih =>
    cases h : R.read b with
    | short =>
      rw [parse_of_short h]
      exact ⟨List.nil_prefix, Bool.noConfusion⟩
    | refused =>
      rw [parse_of_refused h, parse_of_refused (R.refused_append c h)]
      exact ⟨List.nil_prefix, fun _ => rfl⟩
    | frame f rest =>
      rw [parse_of_frame h, parse_of_frame (R.frame_append c h)]
      obtain ⟨hframes, hrefused⟩ := ih rest.length (hn ▸ R.frame_lt h) rest rfl
      exact ⟨cons_prefix_cons.2 ⟨rfl, hframes⟩, hrefused⟩

theorem parse_frames_of_prefix {b c : List β} (h : b <+: c) :
    (R.parse b).frames <+: (R.parse c).frames := by
  obtain ⟨d, rfl⟩ := h
  exact (parse_append b d).1

theorem parse_refused_of_prefix {b c : List β} (h : b <+: c) (hb : (R.parse b).refused = true) :
    (R.parse c).refused = true := by
  obtain ⟨d, rfl⟩ := h
  exact (parse_append b d).2 hb

theorem parse_frames {write : φ → List β} {fs : List φ}
    (h : ∀ f ∈ fs, ∀ rest, R.read (write f ++ rest) = .frame f rest) (c : List β) :
    R.parse (fs.flatMap write ++ c) = ⟨fs ++ (R.parse c).frames, (R.parse c).refused⟩ := by
  induction fs with
  | nil => rfl
  | cons f fs ih =>
    rw [flatMap_cons, append_assoc, parse_of_frame (h f mem_cons_self _),
      ih fun g hg => h g (mem_cons_of_mem f hg)]
    rfl

end FrameReader

end Framing
