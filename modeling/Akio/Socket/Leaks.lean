import Akio.Socket.Model
import Mathlib.Tactic.SplitIfs

/-!
# What the calls leave open

A socket that is not returned was closed once, unless `setsockopt` failed in `tcp_server_serve`: what it jumps to
then sets `sfd` to -1 and does not close it.
-/

namespace Akio.Socket

open Ledger

variable {strerror gai_strerror : Int → String} {proc : process} {s : Int} {flags : BitVec 32} {answer : Option Int}
  {servinfo : List addrinfo} {r : process × Int}

/-- Where -1 is returned nothing is left open, and where a descriptor is, only that. Each other one was closed
once, after it was opened. -/
def Settled (r : process × Int) : Prop :=
  r.2 = -1 ∧ held [] r.1.uses = some [] ∨ 0 ≤ r.2 ∧ held [] r.1.uses = some [.descriptor r.2]

/-- The same at the label `end`, where the list of addresses is not freed yet. -/
def AtEnd (r : process × Int) : Prop :=
  r.2 = -1 ∧ held [] r.1.uses = some [.servinfo] ∨ 0 ≤ r.2 ∧ held [] r.1.uses = some [.descriptor r.2, .servinfo]

/-- `setsockopt` fails for the first address of the list that there is a socket for. -/
def reuseaddrFails : List addrinfo → Bool
  | [] => false
  | p :: servinfo =>
    match p.socket with
    | .error _ => reuseaddrFails servinfo
    | .ok _ => p.setsockopt.isSome

/-! ## What is held -/

@[simp] theorem socket_error_uses (text : String) : (socket_error proc text).uses = proc.uses := rfl

@[simp] theorem syscall_uses : (syscall proc answer).1.uses = proc.uses := by cases answer <;> rfl

@[simp] theorem set_reuseaddr_uses : (set_reuseaddr strerror proc answer).1.uses = proc.uses := by
  unfold set_reuseaddr
  dsimp only
  split_ifs <;> simp

@[simp] theorem set_nonblock_uses {getfl : Except Int (BitVec 32)} {setfl : BitVec 32 → Option Int} :
    (set_nonblock strerror proc getfl setfl).1.uses = proc.uses := by
  unfold set_nonblock
  cases getfl with
  | error errno => rfl
  | ok flags =>
    dsimp only
    split_ifs <;> simp

@[simp] theorem connectNonblock_uses {p : addrinfo} :
    (connectNonblock strerror flags proc p).1.uses = proc.uses := by
  unfold connectNonblock
  split_ifs <;> simp

theorem close_held (hheld : held [] proc.uses = some [.descriptor s, .servinfo]) :
    held [] (close proc s answer).uses = some [.servinfo] := by
  unfold close
  simp only [syscall_uses]
  exact (held_release hheld List.mem_cons_self).trans (by simp)

theorem set_reuseaddr_iff : (set_reuseaddr strerror proc answer).2 ≠ 0 ↔ answer.isSome := by
  cases answer <;> simp [set_reuseaddr, syscall]

theorem AtEnd.settled (h : AtEnd r) : Settled (freeaddrinfo r.1, r.2) := by
  rcases h with ⟨hs, hheld⟩ | ⟨hs, hheld⟩
  · exact Or.inl ⟨hs, held_release hheld List.mem_cons_self⟩
  · exact Or.inr ⟨hs, (held_release hheld (by simp)).trans (by simp)⟩

/-! ## `tcp_connect` -/

theorem connectError_spec (hs : 0 ≤ s) (hheld : held [] proc.uses = some [.descriptor s, .servinfo]) :
    AtEnd (connectError proc s answer) := by
  unfold connectError
  rw [if_pos (by omega)]
  exact Or.inl ⟨rfl, close_held hheld⟩

theorem connectLoop_spec (hheld : held [] proc.uses = some [.servinfo]) :
    AtEnd (connectLoop strerror flags proc (-1) servinfo) := by
  induction servinfo generalizing proc with
  | nil => exact Or.inl ⟨rfl, hheld⟩
  | cons p servinfo ih =>
    unfold connectLoop
    cases p.socket with
    | error errno => exact ih hheld
    | ok fd =>
      have hopen : held [] (proc.uses ++ [.acquire (.descriptor fd)]) = some [.descriptor fd, .servinfo] :=
        held_acquire hheld
      have hfd : (0 : Int) ≤ fd := Int.natCast_nonneg fd
      dsimp only [socket]
      rw [if_neg (by omega)]
      split_ifs
      · exact connectError_spec hfd (by simpa using hopen)
      · exact connectError_spec hfd (by simpa using hopen)
      · exact Or.inr ⟨hfd, by simpa using hopen⟩
      · exact ih (close_held (by simpa using hopen))
      · exact Or.inr ⟨hfd, by simpa using hopen⟩

/-! ## `tcp_server_serve` -/

/-- At the label `end` a socket that is not returned is still open. -/
def Leaks (r : process × Int) : Prop :=
  r.2 = -1 ∧ ∃ fd, held [] r.1.uses = some [.descriptor fd, .servinfo]

theorem Leaks.not_settled (h : Leaks r) : ¬ Settled (freeaddrinfo r.1, r.2) := by
  obtain ⟨hs, fd, hheld⟩ := h
  have hleft : held [] (freeaddrinfo r.1).uses = some [.descriptor fd] :=
    (held_release hheld (by simp)).trans (by simp)
  rintro (⟨-, hnone⟩ | ⟨hret, -⟩)
  · exact absurd (hleft.symm.trans hnone) (by simp)
  · rw [hs] at hret
    exact absurd hret (by decide)

theorem serveLoop_spec (hheld : held [] proc.uses = some [.servinfo]) :
    reuseaddrFails servinfo = false ∧ AtEnd (serveLoop strerror proc servinfo) ∨
    reuseaddrFails servinfo = true ∧ Leaks (serveLoop strerror proc servinfo) := by
  induction servinfo generalizing proc with
  | nil => exact Or.inl ⟨rfl, Or.inl ⟨rfl, hheld⟩⟩
  | cons p servinfo ih =>
    unfold serveLoop reuseaddrFails
    cases p.socket with
    | error errno => exact ih hheld
    | ok fd =>
      have hopen : held [] (proc.uses ++ [.acquire (.descriptor fd)]) = some [.descriptor fd, .servinfo] :=
        held_acquire hheld
      have hfd : (0 : Int) ≤ fd := Int.natCast_nonneg fd
      dsimp only [socket]
      rw [if_neg (by omega)]
      split_ifs with hreuse hbind hlisten
      · -- `goto error` with the socket open.
        exact Or.inr ⟨set_reuseaddr_iff.mp hreuse, rfl, fd, by simpa using hopen⟩
      all_goals
        left
        refine ⟨by simpa [set_reuseaddr_iff] using hreuse, ?_⟩
      · exact Or.inl ⟨rfl, close_held (by simpa using hopen)⟩
      · exact Or.inl ⟨rfl, close_held (by simpa using hopen)⟩
      · exact Or.inr ⟨hfd, by simpa using hopen⟩

/-! ## Both -/

/-- Each time a socket was opened it was closed once, but for the one that is returned. -/
theorem Settled.closed_once (h : Settled r) (fd : Int) :
    r.1.uses.count (.acquire (.descriptor fd)) =
      r.1.uses.count (.release (.descriptor fd)) + if fd = r.2 ∧ 0 ≤ r.2 then 1 else 0 := by
  rcases h with ⟨hs, hheld⟩ | ⟨hs, hheld⟩
  · have hcount := held_count hheld (.descriptor fd)
    rw [if_neg (by omega)]
    simpa using hcount
  · have hcount := held_count hheld (.descriptor fd)
    simp only [List.count_nil, List.count_singleton, beq_iff_eq, Resource.descriptor.injEq] at hcount
    have hret : fd = r.2 ∧ 0 ≤ r.2 ↔ r.2 = fd := ⟨fun h => h.1.symm, fun h => ⟨h.symm, hs⟩⟩
    simp only [hret]
    omega

/-- `tcp_connect` leaves no socket open but the one it returns. `tcp_server_serve` does so if and only if
`setsockopt` does not fail for the first address of the list that there is a socket for. -/
theorem sockets_settled_iff (errno : Int) (err : Option String) (getaddrinfo : Except Int (List addrinfo)) :
    (∀ flags, Settled (tcp_connect strerror gai_strerror ⟨errno, err, []⟩ getaddrinfo flags)) ∧
    (Settled (tcp_server_serve strerror gai_strerror ⟨errno, err, []⟩ getaddrinfo) ↔
      ∀ servinfo, getaddrinfo = .ok servinfo → reuseaddrFails servinfo = false) := by
  cases getaddrinfo with
  | error rv => exact ⟨fun _ => Or.inl ⟨rfl, rfl⟩, iff_of_true (Or.inl ⟨rfl, rfl⟩) (by simp)⟩
  | ok servinfo =>
    have hheld : held [] ([] ++ [Use.acquire Resource.servinfo]) = some [.servinfo] := rfl
    constructor
    · exact fun flags => (connectLoop_spec hheld).settled
    · simp only [Except.ok.injEq, forall_eq']
      rcases @serveLoop_spec strerror ⟨errno, err, _⟩ servinfo hheld with ⟨hok, hend⟩ | ⟨hfails, hleaks⟩
      · exact iff_of_true hend.settled hok
      · exact iff_of_false hleaks.not_settled (by simp [hfails])

/-- An address with a socket whose `setsockopt` fails with `ENOMEM`. -/
def oneAddress : addrinfo where
  socket := .ok 3
  setsockopt := some 12
  getfl := .ok 2#32
  setfl := fun _ => none
  connect := none
  bind := none
  listen := none
  close := none

/-- `tcp_server_serve` returns -1 and leaves the socket open. -/
theorem reuseaddr_leaks :
    (tcp_server_serve (fun _ => "") (fun _ => "") ⟨0, none, []⟩ (.ok [oneAddress])).2 = -1 ∧
    held [] (tcp_server_serve (fun _ => "") (fun _ => "") ⟨0, none, []⟩ (.ok [oneAddress])).1.uses =
      some [.descriptor 3] :=
  ⟨rfl, rfl⟩

end Akio.Socket
