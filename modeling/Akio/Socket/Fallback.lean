import Akio.Socket.Options

/-!
# Which address decides in `kznet/socket.c`

Both loops try the addresses in order. An address comes to a socket, or to the text of an error that ends the call, or
to nothing where the next one is tried.
-/

namespace Akio.Socket

variable {strerror gai_strerror : Int → String} {flags : BitVec 32} {proc : process} {p : addrinfo}
  {servinfo : List addrinfo}

section
variable (strerror : Int → String)

/-- The text of the call that fails where the socket is to be nonblocking. -/
def nonblockFailure (p : addrinfo) : Option String :=
  flagFailure strerror "fcntl(F_GETFL): " "fcntl(F_SETFL,O_NONBLOCK): " O_NONBLOCK p.getfl p.setfl

/-- What an address comes to in `tcp_connect`. -/
def connectAttempt (flags : BitVec 32) (p : addrinfo) : Option (Except String Nat) :=
  match p.socket, p.setsockopt with
  | .error _, _ => none
  | .ok _, some errno => some (.error ("setsockopt SO_REUSEADDR: " ++ strerror errno))
  | .ok fd, none =>
    match if flags &&& CONNECT_NONBLOCK ≠ 0 then nonblockFailure strerror p else none, p.connect with
    | some text, _ => some (.error text)
    | none, none => some (.ok fd)
    | none, some errno =>
      if errno = EINPROGRESS ∧ flags &&& CONNECT_NONBLOCK ≠ 0 then some (.ok fd) else none

/-- `errno` after an address that came to nothing. The last call that fails may be that of `close`. -/
def connectErrno (errno : Int) (p : addrinfo) : Int :=
  match p.socket with
  | .error errno => errno
  | .ok _ => p.close.getD (p.connect.getD errno)

def connectResult (flags : BitVec 32) (errno : Int) (servinfo : List addrinfo) : Except String Nat :=
  (servinfo.findSome? (connectAttempt strerror flags)).getD
    (.error ("creating socket: " ++ strerror (servinfo.foldl connectErrno errno)))

/-- What an address comes to in `tcp_server_serve`. -/
def serveAttempt (p : addrinfo) : Option (Except String Nat) :=
  match p.socket, p.setsockopt, p.bind, p.listen with
  | .error _, _, _, _ => none
  | .ok _, some errno, _, _ => some (.error ("setsockopt SO_REUSEADDR: " ++ strerror errno))
  | .ok _, none, some errno, _ => some (.error ("bind: " ++ strerror errno))
  | .ok _, none, none, some errno => some (.error ("listen: " ++ strerror errno))
  | .ok fd, none, none, none => some (.ok fd)

def serveResult (servinfo : List addrinfo) : Except String Nat :=
  (servinfo.findSome? (serveAttempt strerror)).getD (.error "unable to bind socket")

end

/-! ## Calls -/

@[simp] theorem close_err (fd : Int) (answer : Option Int) : (close proc fd answer).err = proc.err := by
  unfold close
  exact syscall_err answer

theorem close_errno (fd : Int) (answer : Option Int) : (close proc fd answer).errno = answer.getD proc.errno := by
  cases answer <;> rfl

theorem connectError_seen {s : Int} (hs : 0 ≤ s) (answer : Option Int) :
    seen (connectError proc s answer) = (proc.err, -1) := by
  unfold connectError seen
  rw [if_pos (by omega)]
  exact congrArg (·, -1) (close_err s answer)

theorem connectNonblock_of_none (h : (if flags &&& CONNECT_NONBLOCK ≠ 0 then nonblockFailure strerror p else none) =
    none) : connectNonblock strerror flags proc p = (proc, 0) := by
  unfold connectNonblock
  split_ifs at h ⊢
  · exact addFlag_of_none h
  · rfl

theorem connectNonblock_of_some {text : String}
    (h : (if flags &&& CONNECT_NONBLOCK ≠ 0 then nonblockFailure strerror p else none) = some text) :
    seen (connectNonblock strerror flags proc p) = reported proc.err (.error text) := by
  unfold connectNonblock
  split_ifs at h ⊢
  exact addFlag_of_some h

/-! ## `tcp_connect` -/

theorem connectLoop_cons (s : Int) :
    (∃ result, connectAttempt strerror flags p = some result ∧
      seen (connectLoop strerror flags proc s (p :: servinfo)) = reported proc.err result) ∨
    connectAttempt strerror flags p = none ∧ ∃ proc', proc'.err = proc.err ∧
      proc'.errno = connectErrno proc.errno p ∧
      connectLoop strerror flags proc s (p :: servinfo) = connectLoop strerror flags proc' (-1) servinfo := by
  rw [connectLoop]
  unfold connectAttempt connectErrno
  cases hsocket : p.socket with
  | error errno => exact Or.inr ⟨rfl, { proc with errno }, rfl, rfl, rfl⟩
  | ok fd =>
    have hfd : (0 : Int) ≤ fd := Int.natCast_nonneg fd
    have hopened : ¬ (fd : Int) = -1 := by omega
    dsimp only [socket]
    rw [if_neg hopened]
    cases hoption : p.setsockopt with
    | some errno => exact Or.inl ⟨_, rfl, connectError_seen hfd p.close⟩
    | none =>
      let opened : process := { proc with uses := proc.uses ++ [.acquire (.descriptor fd)] }
      rw [show set_reuseaddr strerror opened none = (opened, 0) from rfl]
      dsimp only
      rw [if_neg (not_not.mpr rfl)]
      cases hblock : if flags &&& CONNECT_NONBLOCK ≠ 0 then nonblockFailure strerror p else none with
      | some text =>
        have hseen : seen (connectNonblock strerror flags opened p) = _ := connectNonblock_of_some hblock
        obtain ⟨herr, hrv⟩ := Prod.mk.inj hseen
        rw [if_pos (by rw [hrv]; decide)]
        exact Or.inl ⟨_, rfl, (connectError_seen hfd p.close).trans (congrArg (·, -1) herr)⟩
      | none =>
        rw [connectNonblock_of_none hblock]
        dsimp only
        rw [if_neg (not_not.mpr rfl)]
        cases hconnect : p.connect with
        | none => exact Or.inl ⟨_, rfl, rfl⟩
        | some errno =>
          rw [show syscall opened (some errno) = ({ opened with errno }, -1) from rfl]
          dsimp only
          rw [if_pos rfl]
          by_cases hprogress : errno = EINPROGRESS ∧ flags &&& CONNECT_NONBLOCK ≠ 0
          · refine Or.inl ⟨_, if_pos hprogress, ?_⟩
            rw [if_pos hprogress]
            rfl
          · exact Or.inr ⟨if_neg hprogress, close { opened with errno } fd p.close, close_err _ _, close_errno _ _,
              if_neg hprogress⟩

theorem connectLoop_seen (servinfo : List addrinfo) :
    seen (connectLoop strerror flags proc (-1) servinfo) =
      reported proc.err (connectResult strerror flags proc.errno servinfo) := by
  induction servinfo generalizing proc with
  | nil => rfl
  | cons p servinfo ih =>
    unfold connectResult
    rw [List.findSome?_cons, List.foldl_cons]
    rcases connectLoop_cons (-1) with ⟨result, hattempt, hseen⟩ | ⟨hattempt, proc', herr, herrno, hloop⟩
    · rw [hattempt, hseen]
      rfl
    · rw [hattempt, hloop, ih, herr, herrno]
      rfl

/-- The first address that comes to something decides. The text for the others is that of the last call that failed. -/
theorem tcp_connect_seen (answer : Except Int (List addrinfo)) (flags : BitVec 32) :
    seen (tcp_connect strerror gai_strerror proc answer flags) =
      reported proc.err ((answer.mapError gai_strerror).bind (connectResult strerror flags proc.errno)) := by
  cases answer with
  | error rv => rfl
  | ok servinfo => exact connectLoop_seen servinfo

/-! ## `tcp_server_serve` -/

theorem serveLoop_seen (servinfo : List addrinfo) :
    seen (serveLoop strerror proc servinfo) = reported proc.err (serveResult strerror servinfo) := by
  induction servinfo generalizing proc with
  | nil => rfl
  | cons p servinfo ih =>
    unfold serveResult serveAttempt
    rw [List.findSome?_cons, serveLoop]
    cases hsocket : p.socket with
    | error errno => exact ih
    | ok fd =>
      have hopened : ¬ (fd : Int) = -1 := by omega
      let opened : process := { proc with uses := proc.uses ++ [.acquire (.descriptor fd)] }
      dsimp only [socket]
      rw [if_neg hopened]
      cases hoption : p.setsockopt with
      | some errno => rfl
      | none =>
        rw [show set_reuseaddr strerror opened none = (opened, 0) from rfl]
        dsimp only
        rw [if_neg (not_not.mpr rfl)]
        cases hbind : p.bind with
        | some errno => exact congrArg (·, -1) (close_err _ p.close)
        | none =>
          rw [show syscall opened none = (opened, 0) from rfl]
          dsimp only
          rw [if_neg (not_not.mpr rfl)]
          cases hlisten : p.listen with
          | some errno => exact congrArg (·, -1) (close_err _ p.close)
          | none => rfl

/-- The first address with a socket decides. -/
theorem tcp_server_serve_seen (answer : Except Int (List addrinfo)) :
    seen (tcp_server_serve strerror gai_strerror proc answer) =
      reported proc.err ((answer.mapError gai_strerror).bind (serveResult strerror)) := by
  cases answer with
  | error rv => rfl
  | ok servinfo => exact serveLoop_seen servinfo

end Akio.Socket
