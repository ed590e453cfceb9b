import Mathlib.Tactic

/-!
# Length-prefixed frames

A header of fixed size gives the length of the body that follows it. From any stretch at the
front of a stream of frames that is long enough, the first header and the first body can be read
off.
-/
namespace LdacsSdk.Library

variable {β : Type*} (header : ℕ → List β) (size : ℕ)

/-- One body behind its header. -/
def frame (body : List β) : List β := header body.length ++ body

/-- The stream of all the bodies, each behind its header. -/
def frames (bodies : List (List β)) : List β := (bodies.map (frame header)).flatten

variable {header size} {bodies : List (List β)} {seen tail : List β}

@[simp] theorem frames_nil : frames header [] = [] := rfl

@[simp] theorem frames_cons (body : List β) (rest : List (List β)) :
    frames header (body :: rest) = header body.length ++ body ++ frames header rest := by
  simp [frames, frame]

theorem frames_append (first second : List (List β)) :
    frames header (first ++ second) = frames header first ++ frames header second := by
  simp [frames]

/-- What has been seen of a stream of frames, once it covers a header, starts with that of the
first body. -/
theorem frames_header (hsize : ∀ n, (header n).length = size) (hpos : 0 < size)
    (h : seen ++ tail = frames header bodies) (hlong : size ≤ seen.length) :
    ∃ body rest, bodies = body :: rest ∧ seen.take size = header body.length ∧
      seen.drop size ++ tail = body ++ frames header rest := by
  cases bodies with
  | nil =>
    have hnil : seen = [] := (List.append_eq_nil_iff.mp h).1
    rw [hnil, List.length_nil] at hlong
    omega
  | cons body rest =>
    refine ⟨body, rest, rfl, ?_⟩
    rw [frames_cons, List.append_assoc] at h
    have hsplit : seen.take size ++ (seen.drop size ++ tail) =
        header body.length ++ (body ++ frames header rest) := by
      rw [← List.append_assoc, List.take_append_drop]
      exact h
    exact List.append_inj hsplit (by simp [hsize, hlong])

/-- Behind a header, what has been seen starts with the body once it is as long as that. -/
theorem frames_body {body : List β} (h : seen ++ tail = body ++ frames header bodies)
    (hlong : body.length ≤ seen.length) :
    seen.take body.length = body ∧ seen.drop body.length ++ tail = frames header bodies := by
  have hsplit : seen.take body.length ++ (seen.drop body.length ++ tail) =
      body ++ frames header bodies := by
    rw [← List.append_assoc, List.take_append_drop]
    exact h
  exact List.append_inj hsplit (by simp [hlong])

end LdacsSdk.Library
