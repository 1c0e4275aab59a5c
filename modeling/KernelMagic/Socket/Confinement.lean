/-
  Whether the path of `render` stays in `SERVER_DIR`. The prefix makes every path relative, also where the
  URL begins with a slash, but nothing looks at its components: the path stays inside exactly when no
  first part of the URL has more `..` than names before them (`path_inside_iff`).
-/
import KernelMagic.Lib.Path
import KernelMagic.Socket.Render

namespace KernelMagic.Socket.Uring

open KernelMagic.Lib

variable {buf : List UInt8}

/-- A path comes out only if the URL has an end in the buffer. -/
theorem filePath_path {r : List UInt8 × List UInt8} (h : filePath buf = some r) :
    r.1 = urlPath buf := by
  by_cases hends : UrlEnds buf
  · obtain ⟨buf', hf⟩ := filePath_eq hends
    rw [hf] at h
    rw [← Option.some.inj h]
  · by_cases hne : urlOf buf = []
    · have hstart : buf.drop (4 + ((buf.drop 4).takeWhile (· == space)).length) = [] := by
        rw [← List.drop_drop, ← List.takeWhile_append_dropWhile (p := (· == space)) (l := buf.drop 4),
          List.drop_left' (by simp)]
        exact hne
      unfold filePath strtok at h
      simp only [hstart, Option.bind_none] at h
      cases h
    · rw [filePath_none hne hends] at h
      cases h

theorem urlEnds_of_nul (h : 0 ∈ buf.drop 4) : UrlEnds buf := by
  refine ⟨0, ?_, rfl⟩
  have h0 : 0 ∈ (buf.drop 4).takeWhile (· == space) ++ urlOf buf := by
    rw [urlOf, List.takeWhile_append_dropWhile]
    exact h
  refine (List.mem_append.mp h0).resolve_left fun hs => ?_
  exact absurd (List.mem_takeWhile_imp hs) (by decide)

/-- **Confinement.** For a request that is terminated there is a path; and a path is inside `SERVER_DIR`
    if and only if the URL up to the question mark never has more `..` than names. -/
theorem path_inside_iff (buf : List UInt8) :
    (0 ∈ buf.drop 4 → ∃ r, filePath buf = some r) ∧
      ∀ r, filePath buf = some r →
        (Inside serverDir r.1 ↔ ¬ Climbs 0 (components (pathOf (urlOf buf)))) := by
  have hdir : serverDir = dot ++ [slash] := by decide +kernel
  refine ⟨fun h => ?_, fun r hr => ?_⟩
  · obtain ⟨buf', hf⟩ := filePath_eq (urlEnds_of_nul h)
    exact ⟨_, hf⟩
  · rw [filePath_path hr, urlPath, hdir, List.append_assoc, List.singleton_append, inside_here]
    split
    · next hnil =>
      -- neither `(null)` nor the empty path has a `..`
      rw [List.isEmpty_iff.mp hnil]
      exact iff_of_true (by rw [← mem_normal_iff]; decide +kernel)
        (by rw [← mem_normal_iff]; decide +kernel)
    · rfl

theorem path_inside_get :
    ∃ r, filePath (ascii "GET /a/../b?x HTTP/1.1" ++ [0]) = some r ∧ r.1 = ascii ".//a/../b" ∧
      Inside serverDir r.1 := by
  have h0 : 0 ∈ (ascii "GET /a/../b?x HTTP/1.1" ++ [0]).drop 4 := by decide +kernel
  have hpath : (filePath (ascii "GET /a/../b?x HTTP/1.1" ++ [0])).map Prod.fst =
      some (ascii ".//a/../b") := by
    decide +kernel
  have hn : dotdot ∉ normal (pathOf (urlOf (ascii "GET /a/../b?x HTTP/1.1" ++ [0]))) := by
    decide +kernel
  rw [mem_normal_iff] at hn
  obtain ⟨hsome, hinside⟩ := path_inside_iff (ascii "GET /a/../b?x HTTP/1.1" ++ [0])
  obtain ⟨r, hr⟩ := hsome h0
  rw [hr] at hpath
  exact ⟨r, hr, Option.some.inj hpath, (hinside r hr).mpr hn⟩

/-- The password file, from two levels below the root. -/
theorem path_outside :
    ∃ r, filePath (ascii "GET /../../etc/passwd HTTP/1.1" ++ [0]) = some r ∧
      r.1 = ascii ".//../../etc/passwd" ∧ ¬ Inside serverDir r.1 := by
  have hr : (filePath (ascii "GET /../../etc/passwd HTTP/1.1" ++ [0])).map Prod.fst =
      some (ascii ".//../../etc/passwd") := by
    decide +kernel
  have hin : dotdot ∈ normal (ascii ".//../../etc/passwd") := by decide +kernel
  have hdir : normal serverDir = [] := by decide +kernel
  obtain ⟨r, hr, hpath⟩ := Option.map_eq_some_iff.mp hr
  refine ⟨r, hr, hpath, ?_⟩
  rintro ⟨rest, hrest, hn⟩
  rw [hpath, hdir] at hrest
  rw [hrest] at hin
  exact hn hin

end KernelMagic.Socket.Uring
