/-
  The path and the answer of `render` in `io_uring/socket_uring.c`.

  The path is cut out of the buffer by two `strtok`s: the URL from the fifth byte on up to a space,
  the path from there up to a question mark. `filePath_eq` says in terms of the bytes what comes out:
  `urlPath`, if the buffer has an end of the URL, and else the scan leaves the buffer. The last lemmas
  say how much of the buffer decides this: the bytes up to the end of the path (`PathEnds`), or of the
  URL (`UrlEnds`).

  A NULL given to `%s` prints as `(null)`, as the C library of the platform documents it.
-/
import KernelMagic.Lib.Stdio
import KernelMagic.Socket.Main

namespace KernelMagic.Socket.Uring

open KernelMagic.Lib

def space : UInt8 := 32

def question : UInt8 := 63

/-- `SERVER_DIR`. -/
def serverDir : List UInt8 := ascii "./"

/-- The path given to `fopen`, and the buffer after both `strtok`s. -/
def filePath (buf : List UInt8) : Option (List UInt8 × List UInt8) :=
  (strtok space buf 4).bind fun url =>
    (strtok question url.2.2 (url.1.getD url.2.1)).bind fun path =>
      match path.1 with
      | none => some (serverDir ++ ascii "(null)", path.2.2)
      | some p => (printStr (path.2.2.drop p)).map fun str => (serverDir ++ str, path.2.2)

/-- The messages sent for a file with this content, or for one that cannot be opened. -/
def response : Option (List UInt8) → List (List UInt8)
  | some content =>
    ascii "HTTP/1.1 200 OK\n\n" :: (fgetsAll maxline content.length content).map cstr
  | none => [ascii "HTTP/1.1 404 Not Found\n\n"]

/-! ## The path in terms of the bytes -/

/-- The buffer from the start of the URL on. -/
def urlOf (buf : List UInt8) : List UInt8 := (buf.drop 4).dropWhile (· == space)

def isUrl (b : UInt8) : Bool := b != space && b != 0

def isPath (b : UInt8) : Bool := b != question && b != space && b != 0

def pathOf (url : List UInt8) : List UInt8 := (url.dropWhile (· == question)).takeWhile isPath

/-- The end of the URL is among the bytes. -/
def UrlEnds (bs : List UInt8) : Prop := ∃ b ∈ urlOf bs, isUrl b = false

/-- The end of the path is. -/
def PathEnds (bs : List UInt8) : Prop := ∃ b ∈ (urlOf bs).dropWhile (· == question), isPath b = false

instance (bs : List UInt8) : Decidable (UrlEnds bs) :=
  inferInstanceAs (Decidable (∃ b ∈ urlOf bs, isUrl b = false))

instance (bs : List UInt8) : Decidable (PathEnds bs) :=
  inferInstanceAs (Decidable (∃ b ∈ (urlOf bs).dropWhile (· == question), isPath b = false))

def urlPath (bs : List UInt8) : List UInt8 :=
  serverDir ++ if (pathOf (urlOf bs)).isEmpty then ascii "(null)" else pathOf (urlOf bs)

variable {buf bs : List UInt8}

theorem isUrl_iff {b : UInt8} : isUrl b = true ↔ b ≠ space ∧ b ≠ 0 := by
  simp [isUrl]

theorem isUrl_false {b : UInt8} : isUrl b = false ↔ b = space ∨ b = 0 := by
  rw [← Bool.not_eq_true, isUrl_iff]
  tauto

theorem isPath_of_isUrl_false {b : UInt8} (h : isUrl b = false) : isPath b = false := by
  rcases isUrl_false.mp h with rfl | rfl <;> decide

theorem question_of_isUrl_false {b : UInt8} (h : isUrl b = false) : (b == question) = false := by
  rcases isUrl_false.mp h with rfl | rfl <;> decide

/-- The buffer is four bytes, spaces, and the URL with what follows. -/
theorem buf_split (h : urlOf buf ≠ []) :
    ∃ pre skip, buf = pre ++ (skip ++ urlOf buf) ∧ pre.length = 4 ∧ ∀ b ∈ skip, b = space := by
  refine ⟨buf.take 4, (buf.drop 4).takeWhile (· == space), ?_, ?_, ?_⟩
  · rw [urlOf, List.takeWhile_append_dropWhile, List.take_append_drop]
  · rw [List.length_take]
    by_contra hlen
    refine h ?_
    rw [urlOf, List.drop_of_length_le (by omega)]
    rfl
  · intro b hb
    simpa using List.mem_takeWhile_imp hb

/-- Behind the path is a question mark or the NUL that the first `strtok` has written. -/
theorem path_split {url : List UInt8} (rest : List UInt8) (hurl : ∀ b ∈ url, isUrl b = true) :
    ∃ e r, url ++ 0 :: rest = url.takeWhile isPath ++ e :: r ∧ (e = question ∨ e = 0) := by
  by_cases h : ∃ b ∈ url, isPath b = false
  · obtain ⟨e, r, hsplit, he⟩ := split_scan h
    have hmem : e ∈ url := by
      rw [hsplit]
      simp
    refine ⟨e, r ++ 0 :: rest, ?_, ?_⟩
    · rw [← List.cons_append, ← List.append_assoc, ← hsplit]
    · have hne := isUrl_iff.mp (hurl e hmem)
      simpa [isPath, hne] using he
  · have hall : url.takeWhile isPath = url := by
      rw [List.takeWhile_eq_self_iff]
      intro b hb
      by_contra hn
      exact h ⟨b, hb, Bool.not_eq_true _ ▸ hn⟩
    exact ⟨0, rest, by rw [hall], .inr rfl⟩

/-- The path that the second `strtok` finds in a URL that has been cut off. -/
theorem strtok_path (pre rest : List UInt8) {url : List UInt8} (hurl : ∀ b ∈ url, isUrl b = true)
    (hpath : pathOf url ≠ []) :
    ∃ p save buf', strtok question (pre ++ (url ++ 0 :: rest)) pre.length =
      some (some p, save, buf') ∧ printStr (buf'.drop p) = some (pathOf url) := by
  have hskip : ∀ b ∈ url.takeWhile (· == question), b = question := by
    intro b hb
    simpa using List.mem_takeWhile_imp hb
  have hrest : ∀ b ∈ url.dropWhile (· == question), isUrl b = true := by
    intro b hb
    exact hurl b ((List.dropWhile_sublist _).subset hb)
  have htok : ∀ b ∈ pathOf url, b ≠ question ∧ b ≠ 0 := by
    intro b hb
    have := List.mem_takeWhile_imp hb
    simp only [isPath, Bool.and_eq_true, bne_iff_ne] at this
    exact ⟨this.1.1, this.2⟩
  obtain ⟨e, r, hsplit, he⟩ := path_split rest hrest
  have hmem : url ++ 0 :: rest = url.takeWhile (· == question) ++ (pathOf url ++ e :: r) := by
    rw [pathOf, ← hsplit, ← List.append_assoc, List.takeWhile_append_dropWhile]
  rw [hmem]
  obtain ⟨save, hs⟩ := strtok_token pre r hskip hpath htok he
  refine ⟨_, save, _, hs, ?_⟩
  rw [drop_start, printStr, if_pos (by simp), cstr_append_zero fun b hb => (htok b hb).2]

theorem strtok_no_path (pre rest : List UInt8) {url : List UInt8} (hurl : ∀ b ∈ url, isUrl b = true)
    (hpath : pathOf url = []) :
    ∃ save buf', strtok question (pre ++ (url ++ 0 :: rest)) pre.length =
      some (none, save, buf') := by
  -- the URL has question marks only: behind them the path would start
  have hall : ∀ b ∈ url, b = question := by
    have hnil : url.dropWhile (· == question) = [] := by
      match hv : url.dropWhile (· == question) with
      | [] => rfl
      | b :: v =>
        have hq : (b == question) = false := by
          have hhead := List.head?_dropWhile_not (· == question) url
          rw [hv] at hhead
          simpa using hhead
        have hb := isUrl_iff.mp (hurl b ((List.dropWhile_sublist _).subset
          (show b ∈ url.dropWhile (· == question) by rw [hv]; exact List.mem_cons_self)))
        have hp : isPath b = true := by
          simp only [isPath, Bool.and_eq_true, bne_iff_ne]
          exact ⟨⟨by simpa using hq, hb.1⟩, hb.2⟩
        rw [pathOf, hv, List.takeWhile_cons, if_pos hp] at hpath
        cases hpath
    intro b hb
    simpa using List.dropWhile_eq_nil_iff.mp hnil b hb
  exact ⟨_, _, strtok_null hall (by decide)⟩

theorem pathOf_cut (url rest : List UInt8) {e : UInt8} (he : isUrl e = false) :
    pathOf (url ++ e :: rest) = pathOf url := by
  rw [pathOf, dropWhile_stop (p := (· == question)) (question_of_isUrl_false he),
    takeWhile_stop (isPath_of_isUrl_false he)]
  rfl

theorem urlOf_head (buf : List UInt8) : (urlOf buf).head? ≠ some space := by
  have h := List.head?_dropWhile_not (· == space) (buf.drop 4)
  intro hs
  rw [show (buf.drop 4).dropWhile (· == space) = urlOf buf from rfl, hs] at h
  simp at h

/-- The first `strtok` cuts the URL off; where there is none, the second goes on at the NUL. -/
theorem strtok_url (pre : List UInt8) {skip url rest : List UInt8} {e : UInt8}
    (hskip : ∀ b ∈ skip, b = space)
    (hurl : ∀ b ∈ url, isUrl b = true) (he : isUrl e = false)
    (hhead : (url ++ e :: rest).head? ≠ some space) :
    ∃ u save, strtok space (pre ++ (skip ++ (url ++ e :: rest))) pre.length =
        some (u, save, (pre ++ skip) ++ (url ++ 0 :: rest)) ∧
      u.getD save = (pre ++ skip).length := by
  have he' := isUrl_false.mp he
  by_cases hnil : url = []
  · subst hnil
    have h0 : e = 0 := he'.resolve_left (by simpa using hhead)
    subst h0
    rw [List.nil_append, List.append_assoc, List.length_append]
    exact ⟨none, _, strtok_null hskip (by decide), rfl⟩
  · obtain ⟨save, hs⟩ := strtok_token pre rest hskip hnil
      (fun b hb => isUrl_iff.mp (hurl b hb)) he'
    rw [List.append_assoc, List.length_append]
    exact ⟨_, save, hs, rfl⟩

/-- The path, when the URL has an end somewhere in the buffer. -/
theorem filePath_eq (h : UrlEnds buf) : ∃ buf', filePath buf = some (urlPath buf, buf') := by
  obtain ⟨e, rest, hsplit, he⟩ := split_scan h
  have hurl : ∀ b ∈ (urlOf buf).takeWhile isUrl, isUrl b = true := fun b hb =>
    List.mem_takeWhile_imp hb
  have hpath : pathOf (urlOf buf) = pathOf ((urlOf buf).takeWhile isUrl) := by
    have := pathOf_cut ((urlOf buf).takeWhile isUrl) rest he
    rw [← hsplit] at this
    exact this
  have hhead := urlOf_head buf
  have hne : urlOf buf ≠ [] := by
    rw [hsplit]
    simp
  obtain ⟨pre, skip, hbuf, hlen, hskip⟩ := buf_split hne
  rw [hsplit] at hhead hbuf
  obtain ⟨u, save, hu, hstart⟩ := strtok_url pre hskip hurl he hhead
  rw [← hbuf, hlen] at hu
  unfold filePath urlPath
  rw [hu, Option.bind_some, hstart, hpath]
  by_cases hnil : pathOf ((urlOf buf).takeWhile isUrl) = []
  · obtain ⟨save', buf', hs⟩ := strtok_no_path (pre ++ skip) rest hurl hnil
    rw [hs, hnil]
    exact ⟨buf', rfl⟩
  · obtain ⟨p, save', buf', hs, hstr⟩ := strtok_path (pre ++ skip) rest hurl hnil
    rw [hs, Option.bind_some, if_neg (by simpa using hnil)]
    simp only [hstr, Option.map_some]
    exact ⟨buf', rfl⟩

/-- Without one, the scan leaves the buffer. -/
theorem filePath_none (hne : urlOf buf ≠ []) (h : ¬ UrlEnds buf) : filePath buf = none := by
  have hall : ∀ b ∈ urlOf buf, b ≠ space ∧ b ≠ 0 := by
    intro b hb
    refine isUrl_iff.mp ?_
    by_contra hn
    exact h ⟨b, hb, Bool.not_eq_true _ ▸ hn⟩
  obtain ⟨pre, skip, hbuf, hlen, hskip⟩ := buf_split hne
  have hs := strtok_past pre hskip hall
  rw [← hbuf, hlen] at hs
  rw [filePath, hs]
  rfl

/-! ## How much of the buffer decides -/

variable {stale : List UInt8}

theorem urlOf_append (h : urlOf bs ≠ []) : urlOf (bs ++ stale) = urlOf bs ++ stale := by
  have hlen : 4 ≤ bs.length := by
    by_contra hlt
    refine h ?_
    rw [urlOf, List.drop_of_length_le (by omega)]
    rfl
  rw [urlOf, List.drop_append_of_le_length hlen, List.dropWhile_append, if_neg]
  · rfl
  · rw [List.isEmpty_iff]
    exact h

theorem UrlEnds.append (stale : List UInt8) (h : UrlEnds bs) : UrlEnds (bs ++ stale) := by
  obtain ⟨b, hb, he⟩ := h
  refine ⟨b, ?_, he⟩
  rw [urlOf_append (List.ne_nil_of_mem hb)]
  exact List.mem_append_left _ hb

theorem UrlEnds.pathEnds (h : UrlEnds bs) : PathEnds bs := by
  obtain ⟨e, rest, hsplit, he⟩ := split_scan h
  refine ⟨e, ?_, isPath_of_isUrl_false he⟩
  rw [hsplit, dropWhile_stop (p := (· == question)) (question_of_isUrl_false he)]
  simp

theorem urlPath_append (h : PathEnds bs) : urlPath (bs ++ stale) = urlPath bs := by
  obtain ⟨e, rest, hsplit, he⟩ := split_scan h
  have hne : (urlOf bs).dropWhile (· == question) ≠ [] := by
    rw [hsplit]
    simp
  have hurl : urlOf bs ≠ [] := by
    intro hn
    rw [hn] at hne
    exact hne rfl
  have hpath : pathOf (urlOf (bs ++ stale)) = pathOf (urlOf bs) := by
    rw [urlOf_append hurl, pathOf, List.dropWhile_append, if_neg (by simpa using hne)]
    conv_lhs => rw [hsplit, List.append_assoc, List.cons_append, takeWhile_stop he]
    rw [pathOf]
    conv_rhs => rw [hsplit, takeWhile_stop he]
  rw [urlPath, urlPath, hpath]

/-- The path when the first bytes of the buffer have its end. -/
theorem filePath_bytes {r : List UInt8 × List UInt8} (h : PathEnds bs)
    (hr : filePath (bs ++ stale) = some r) : r.1 = urlPath bs := by
  have hne : urlOf bs ≠ [] := by
    obtain ⟨b, hb, -⟩ := h
    exact List.ne_nil_of_mem ((List.dropWhile_sublist _).subset hb)
  by_cases hends : UrlEnds (bs ++ stale)
  · obtain ⟨buf', hf⟩ := filePath_eq hends
    rw [← Option.some.inj (hf.symm.trans hr)]
    exact urlPath_append h
  · rw [filePath_none (by rw [urlOf_append hne]; simp [hne]) hends] at hr
    cases hr

end KernelMagic.Socket.Uring
