/-
  `io_uring/socket_uring_normal.c`: what a client sends is sent back to it.

  Here is what the program does with the completion of a recv and of a send, and that this is all it
  does (`serves`). All clients share one buffer; what that does to the answers is in
  `Socket.Isolation`, who closes which descriptor in `Socket.Closing`.
-/
import KernelMagic.Socket.Steps

namespace KernelMagic.Socket.Normal

open KernelMagic.Lib

/-- `EVENT_READ`. -/
def onRead (s : State) (x : Cqe Req) (_ : Answers) : Option State :=
  if x.res < 0 then some (closeFd s x.req.data.connfd x.req.tag.owner)
  else if x.res = 0 then some (closeFd s x.req.data.connfd x.req.tag.owner)
  else
    setSendEvent s x.req.data.connfd x.res.toNat
      ⟨x.req.tag.owner, x.req.fd, x.req.tag.origin, x.req.tag.bytes⟩

/-- `EVENT_WRITE`: after the `close` the recv is posted all the same. -/
def onWrite (s : State) (x : Cqe Req) (_ : Answers) : Option State :=
  setRecvEvent (if x.res < 0 then closeFd s x.req.data.connfd x.req.tag.owner else s)
    x.req.data.connfd maxline x.req.tag.owner

def program : Program := ⟨onRead, onWrite⟩

/-! ## What the loop does with a completion -/

/-- The send that answers the recv. -/
def echoReq (x : Cqe Req) : Req :=
  sendReq x.req.fd x.res.toNat ⟨x.req.tag.owner, x.req.fd, x.req.tag.origin, x.req.tag.bytes⟩

def againReq (x : Cqe Req) : Req := recvReq x.req.fd maxline x.req.tag.owner

inductive Serve (w : World) (x : Cqe Req) : List Req → World → Prop
  | hungUp (len : Nat) (hop : x.req.op = .recv len) (hres : x.res ≤ 0) :
      Serve w x [] (w.close x.req.fd x.req.tag.owner)
  | echoed (len : Nat) (hop : x.req.op = .recv len) (hres : 0 < x.res) :
      Serve w x [echoReq x] (w.posted (echoReq x))
  | resumed (len : Nat) (hop : x.req.op = .send len) (hres : 0 ≤ x.res) :
      Serve w x [againReq x] (w.posted (againReq x))
  | broken (len : Nat) (hop : x.req.op = .send len) (hres : x.res < 0) :
      Serve w x [againReq x] ((w.close x.req.fd x.req.tag.owner).posted (againReq x))

theorem serves : Serves program Serve where
  read := by
    intro s x a t n hop hd h
    have h : onRead s x a = some t := h
    simp only [onRead, hd] at h
    rw [ite_nonpos] at h
    by_cases hres : x.res ≤ 0
    · rw [if_pos hres] at h
      refine ⟨[], _, ?_, .hungUp n hop hres⟩
      rw [← Option.some.inj h]
      simp [closeFd, react]
    · rw [if_neg hres] at h
      exact ⟨[echoReq x], _, post_eq h, .echoed n hop (by omega)⟩
  write := by
    intro s x a t n hop hd h
    have h : onWrite s x a = some t := h
    simp only [onWrite, hd] at h
    by_cases hres : x.res < 0
    · rw [if_pos hres] at h
      refine ⟨[againReq x], _, ?_, .broken n hop hres⟩
      rw [post_eq h]
      rfl
    · rw [if_neg hres] at h
      exact ⟨[againReq x], _, post_eq h, .resumed n hop (by omega)⟩
  posts := by
    intro w x news w' h q hq
    cases h with
    | hungUp len hop hres => cases hq
    | echoed len hop hres =>
      rw [List.mem_singleton] at hq
      exact ⟨_, .inr ⟨_, hq⟩⟩
    | resumed len hop hres =>
      rw [List.mem_singleton] at hq
      exact ⟨_, .inl ⟨_, hq⟩⟩
    | broken len hop hres =>
      rw [List.mem_singleton] at hq
      exact ⟨_, .inl ⟨_, hq⟩⟩
  about := by
    intro w x news w' h
    cases h with
    | hungUp len hop hres => exact ⟨len, .inl hop⟩
    | echoed len hop hres => exact ⟨len, .inl hop⟩
    | resumed len hop hres => exact ⟨len, .inr hop⟩
    | broken len hop hres => exact ⟨len, .inr hop⟩
  accepted := by
    intro w x news w' h
    cases h <;> rfl
  table := by
    intro w x news w' h fd hfd
    cases h with
    | hungUp len hop hres => exact Function.update_of_ne hfd _ _
    | echoed len hop hres => rfl
    | resumed len hop hres => rfl
    | broken len hop hres => exact Function.update_of_ne hfd _ _
  history := by
    intro w x news w' h
    cases h with
    | hungUp len hop hres => exact ⟨[], (List.append_nil _).symm, by simp⟩
    | echoed len hop hres => exact ⟨_, rfl, by simp [echoReq, sendReq]⟩
    | resumed len hop hres => exact ⟨_, rfl, by simp [againReq, recvReq]⟩
    | broken len hop hres => exact ⟨_, rfl, by simp [againReq, recvReq, World.close]⟩

end KernelMagic.Socket.Normal
