/-
  What `render` sends of a file. The file is read in pieces, each up to a newline or 4095 bytes long, and
  each is sent as far as `strlen` goes. The pieces are the whole file; of a piece with a NUL in it, what
  stands behind the NUL is not sent.
-/
import KernelMagic.Socket.Uring

namespace KernelMagic.Socket.Uring

open KernelMagic.Lib

variable {s t : State} {fd : Nat} {o : Owner} {a : Answers}

/-- The bytes sent between two states. -/
def sentSince (s t : State) : List UInt8 :=
  (t.world.replies.drop s.world.replies.length).flatMap Prod.snd

theorem sentSince_render (h : render s fd o a = some t) :
    sentSince s t = (response a.file).flatten := by
  obtain ⟨r, -, rfl⟩ := Option.map_eq_some_iff.mp h
  have hsent : (closeFd { s with world := rendered s.world fd r.1 r.2 a.file } fd o).world.replies =
      s.world.replies ++ (response a.file).map fun m => (fd, m) := rfl
  rw [sentSince, hsent, List.drop_left, List.flatMap_def, List.map_map]
  exact congrArg List.flatten (List.map_id _)

/-- **Body.** The answer for a file that can be opened begins with the 17 bytes of the status; what
    follows is the content of the file if and only if it has no NUL. -/
theorem body_iff (s t : State) (fd : Nat) (o : Owner) (a : Answers) (content : List UInt8)
    (hfile : a.file = some content) (h : render s fd o a = some t) :
    (sentSince s t).take 17 = ascii "HTTP/1.1 200 OK\n\n" ∧
      ((sentSince s t).drop 17 = content ↔ 0 ∉ content) := by
  have hstatus : (ascii "HTTP/1.1 200 OK\n\n").length = 17 := by decide +kernel
  have hall : (fgetsAll maxline content.length content).flatten = content :=
    flatten_fgetsAll (by decide) content
  rw [sentSince_render h, hfile, response, List.flatten_cons]
  refine ⟨List.take_left' hstatus, ?_⟩
  rw [List.drop_left' hstatus]
  calc ((fgetsAll maxline content.length content).map cstr).flatten = content
      ↔ ((fgetsAll maxline content.length content).map cstr).flatten =
          (fgetsAll maxline content.length content).flatten := by rw [hall]
    _ ↔ 0 ∉ (fgetsAll maxline content.length content).flatten := flatten_cstr_eq_iff _
    _ ↔ 0 ∉ content := by rw [hall]

/-- The request for `/a`, served with a file of two lines. -/
theorem body_get :
    ∃ s t, run (step env₀ program) (init env₀) (firstRequest (ascii "GET /a ")) = some s ∧
      render s 5 (.conn 0) { file := some (ascii "one\ntwo\n") } = some t ∧
      (sentSince s t).drop 17 = ascii "one\ntwo\n" := by
  have hr : ((run (step env₀ program) (init env₀) (firstRequest (ascii "GET /a "))).bind fun s =>
      render s 5 (.conn 0) { file := some (ascii "one\ntwo\n") }).isSome = true := by
    decide +kernel
  obtain ⟨t, ht⟩ := Option.isSome_iff_exists.mp hr
  obtain ⟨s, hs, ht⟩ := Option.bind_eq_some_iff.mp ht
  have h0 : 0 ∉ ascii "one\ntwo\n" := by decide +kernel
  have hbody := (body_iff s t 5 (.conn 0) _ (ascii "one\ntwo\n") rfl ht).2
  exact ⟨s, t, hs, ht, hbody.mpr h0⟩

/-- Five bytes with a NUL in the middle: the first two are sent. -/
theorem body_cut :
    ∃ s t, run (step env₀ program) (init env₀) (firstRequest (ascii "GET /a ")) = some s ∧
      render s 5 (.conn 0) { file := some [97, 98, 0, 99, 100] } = some t ∧
      (sentSince s t).drop 17 = [97, 98] ∧ (sentSince s t).drop 17 ≠ [97, 98, 0, 99, 100] := by
  have hr : ((run (step env₀ program) (init env₀) (firstRequest (ascii "GET /a "))).bind fun s =>
      (render s 5 (.conn 0) { file := some [97, 98, 0, 99, 100] }).map fun t =>
        (sentSince s t).drop 17) = some [97, 98] := by
    decide +kernel
  obtain ⟨s, hs, hr⟩ := Option.bind_eq_some_iff.mp hr
  obtain ⟨t, ht, hsent⟩ := Option.map_eq_some_iff.mp hr
  exact ⟨s, t, hs, ht, hsent, by rw [hsent]; decide⟩

end KernelMagic.Socket.Uring
