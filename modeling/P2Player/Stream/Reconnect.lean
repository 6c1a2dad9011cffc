import P2Player.Lib.Transition

/-!
# Closing a connector that reconnects

`DataConnector.reconnect` and `DataConnector.getData` are synchronized, but `close` is not, so that it
can interrupt a read.  Its steps fall between those of `reconnect`.

* `State`, `Action`, `step`: the sockets, with the steps of `reconnect`, of `close` and of a request;
* `Shut`: no socket is open and no request will be sent;
* `step_cases`: what a step does with the sockets;
* `InTime`: a new socket is assigned before `close` has read the field;
* `shut_iff`: the runs that leave the connector shut.

`close` closes the socket that it has read from the field, whatever is assigned to the field behind that,
and `reconnect` does not look at `closed` again.
-/

namespace P2Player.Stream.Reconnect

open Transition

/-! ### The steps -/

/-- Where `reconnect` is: `closed` was false; the old socket is closed; a new one is open; it is
assigned; its streams are. -/
inductive Progress
  | idle
  | checked
  | closedOld
  | connected (n : ℕ)
  | assigned
  | ready
  deriving DecidableEq

/-- Where `close` is: `closed` is set; the socket of the field is read; it is closed. -/
inductive Closing
  | before
  | closing
  | read (n : ℕ)
  | done
  deriving DecidableEq

/-- The fields `closed` and `socket`, the socket that `out` writes to, the open sockets with the number
of the next one, the requests sent, and the two calls. -/
structure State where
  closed : Bool
  socket : ℕ
  out : ℕ
  live : Finset ℕ
  next : ℕ
  sent : ℕ
  reconnect : Progress
  close : Closing

/-- A connector behind its constructor. -/
def init : State where
  closed := false
  socket := 0
  out := 0
  live := {0}
  next := 1
  sent := 0
  reconnect := .idle
  close := .before

/-- The steps of `reconnect`, each with whether it throws no `IOException`; `request` is what `getData`
or `initData` writes; `setClosed`, `readSocket` and `closeSocket` are those of `close`, which holds no
monitor. -/
inductive Action
  | check
  | closeOld (ok : Bool)
  | connect (ok : Bool)
  | assign
  | getStreams (ok : Bool)
  | finish (initData : Bool)
  | request
  | setClosed
  | readSocket
  | closeSocket

/-- What is written to `out` is sent when its socket is open. -/
def State.write (s : State) : State := { s with sent := if s.out ∈ s.live then s.sent + 1 else s.sent }

/-- One step. -/
def step (s : State) : Action → Option State
  | .check =>
    if s.reconnect = .idle then
      some (if s.closed then s else { s with reconnect := .checked })
    else none
  | .closeOld ok =>
    if s.reconnect = .checked then
      some { s with
        live := s.live.erase s.socket
        reconnect := if ok then .closedOld else .idle }
    else none
  | .connect ok =>
    if s.reconnect = .closedOld then
      some (if ok then
        { s with live := insert s.next s.live, next := s.next + 1, reconnect := .connected s.next }
      else { s with reconnect := .idle })
    else none
  | .assign =>
    match s.reconnect with
    | .connected n => some { s with socket := n, reconnect := .assigned }
    | _ => none
  | .getStreams ok =>
    if s.reconnect = .assigned then
      -- a closed socket has no streams
      some (if ok ∧ s.socket ∈ s.live then { s with out := s.socket, reconnect := .ready }
      else { s with reconnect := .idle })
    else none
  | .finish initData =>
    if s.reconnect = .ready then
      some (if initData then { s.write with reconnect := .idle } else { s with reconnect := .idle })
    else none
  | .request => if s.reconnect = .idle then some s.write else none
  | .setClosed =>
    if s.close = .before then some { s with closed := true, close := .closing } else none
  | .readSocket =>
    -- the test against null reads the field too, and it is never null behind the constructor
    if s.close = .closing then some { s with close := .read s.socket } else none
  | .closeSocket =>
    match s.close with
    | .read n => some { s with live := s.live.erase n, close := .done }
    | _ => none

/-! ### What is right, and when -/

/-- No socket is open, and none will be, and no request will be sent. -/
def Shut (s : State) : Prop :=
  ∀ as s', run step s as = some s' → s'.live = ∅ ∧ s'.sent = s.sent

/-- Both calls have ended. -/
def Finished (s : State) : Prop := s.reconnect = .idle ∧ s.close = .done

/-- A new socket is assigned before `close` has read the field. -/
def InTime (s : State) (a : Action) : Prop := a = .assign → s.close = .before ∨ s.close = .closing

/-! ### The sockets in a run -/

/-- The open sockets are that of the field, unless `reconnect` has closed it, and the one that waits to
be assigned; `close` has not read the latter. -/
structure Inv (s : State) : Prop where
  live_eq : ∀ n ∈ s.live, n = s.socket ∨ s.reconnect = .connected n
  live_lt : ∀ n ∈ s.live, n < s.next
  socket_lt : s.socket < s.next
  closedOld : s.reconnect = .closedOld → s.socket ∉ s.live
  connected : ∀ n, s.reconnect = .connected n → n ∈ s.live ∧ s.socket ∉ s.live
  closed_eq : s.close ≠ .before → s.closed = true
  read_lt : ∀ n, s.close = .read n → n < s.next
  read_ne : ∀ n, s.close = .read n → s.reconnect ≠ .connected n

theorem inv_init : Inv init := by
  constructor <;> simp [init]

/-- A step that leaves the sockets alone; `reconnect` goes neither to a new socket nor on with it. -/
structure Quiet (s s' : State) : Prop where
  socket_eq : s'.socket = s.socket
  live_eq : s'.live = s.live
  next_eq : s'.next = s.next
  reconnect : s'.reconnect = s.reconnect ∨ (∀ n, s.reconnect ≠ .connected n) ∧
    s'.reconnect ≠ .closedOld ∧ ∀ n, s'.reconnect ≠ .connected n
  close : s'.close = s.close ∧ s'.closed = s.closed ∨ s'.close = .closing ∧ s'.closed = true

/-- What a step does with the sockets: nothing, or one of five things. -/
theorem step_cases {s s' : State} {a : Action} (hs : step s a = some s') :
    Quiet s s' ∨
    (s.reconnect = .checked ∧ ∃ p, (p = .closedOld ∨ p = .idle) ∧
      s' = { s with live := s.live.erase s.socket, reconnect := p }) ∨
    (s.reconnect = .closedOld ∧ s' = { s with
      live := insert s.next s.live, next := s.next + 1, reconnect := .connected s.next }) ∨
    (a = .assign ∧ ∃ n, s.reconnect = .connected n ∧
      s' = { s with socket := n, reconnect := .assigned }) ∨
    (s.close = .closing ∧ s' = { s with close := .read s.socket }) ∨
    (∃ n, s.close = .read n ∧ s' = { s with live := s.live.erase n, close := .done }) := by
  cases a with
  | check =>
    dsimp only [step] at hs
    split_ifs at hs with hidle hclosed <;> cases hs
    · exact Or.inl ⟨rfl, rfl, rfl, Or.inl rfl, Or.inl ⟨rfl, rfl⟩⟩
    · exact Or.inl ⟨rfl, rfl, rfl, Or.inr (by simp [hidle]), Or.inl ⟨rfl, rfl⟩⟩
  | closeOld ok =>
    dsimp only [step] at hs
    split_ifs at hs with hchecked hok <;> cases hs
    · exact Or.inr (Or.inl ⟨hchecked, _, Or.inl rfl, rfl⟩)
    · exact Or.inr (Or.inl ⟨hchecked, _, Or.inr rfl, rfl⟩)
  | connect ok =>
    dsimp only [step] at hs
    split_ifs at hs with hold hok <;> cases hs
    · exact Or.inr (Or.inr (Or.inl ⟨hold, rfl⟩))
    · exact Or.inl ⟨rfl, rfl, rfl, Or.inr (by simp [hold]), Or.inl ⟨rfl, rfl⟩⟩
  | assign =>
    dsimp only [step] at hs
    split at hs <;> cases hs
    rename_i n hconnected
    exact Or.inr (Or.inr (Or.inr (Or.inl ⟨rfl, n, hconnected, rfl⟩)))
  | getStreams ok =>
    dsimp only [step] at hs
    split_ifs at hs with hassigned hok <;> cases hs
    · exact Or.inl ⟨rfl, rfl, rfl, Or.inr (by simp [hassigned]), Or.inl ⟨rfl, rfl⟩⟩
    · exact Or.inl ⟨rfl, rfl, rfl, Or.inr (by simp [hassigned]), Or.inl ⟨rfl, rfl⟩⟩
  | finish initData =>
    dsimp only [step] at hs
    split_ifs at hs with hready hinit <;> cases hs
    · exact Or.inl ⟨rfl, rfl, rfl, Or.inr (by simp [hready]), Or.inl ⟨rfl, rfl⟩⟩
    · exact Or.inl ⟨rfl, rfl, rfl, Or.inr (by simp [hready]), Or.inl ⟨rfl, rfl⟩⟩
  | request =>
    dsimp only [step] at hs
    split_ifs at hs
    cases hs
    exact Or.inl ⟨rfl, rfl, rfl, Or.inl rfl, Or.inl ⟨rfl, rfl⟩⟩
  | setClosed =>
    dsimp only [step] at hs
    split_ifs at hs
    cases hs
    exact Or.inl ⟨rfl, rfl, rfl, Or.inl rfl, Or.inr ⟨rfl, rfl⟩⟩
  | readSocket =>
    dsimp only [step] at hs
    split_ifs at hs with hclosing
    cases hs
    exact Or.inr (Or.inr (Or.inr (Or.inr (Or.inl ⟨hclosing, rfl⟩))))
  | closeSocket =>
    dsimp only [step] at hs
    split at hs <;> cases hs
    rename_i n hread
    exact Or.inr (Or.inr (Or.inr (Or.inr (Or.inr ⟨n, hread, rfl⟩))))

theorem Quiet.closed_eq {s s' : State} (hq : Quiet s s') (h : s.close ≠ .before → s.closed = true) :
    s'.close ≠ .before → s'.closed = true := by
  rcases hq.close with ⟨hclose, hclosed⟩ | ⟨-, hclosed⟩
  · rw [hclose, hclosed]
    exact h
  · exact fun _ => hclosed

/-- A quiet step does not read the field. -/
theorem Quiet.read {s s' : State} (hq : Quiet s s') {n : ℕ} (hread : s'.close = .read n) :
    s.close = .read n := by
  rcases hq.close with ⟨hclose, -⟩ | ⟨hclose, -⟩
  · exact hclose.symm.trans hread
  · rw [hclose] at hread
    cases hread

theorem Inv.of_quiet {s s' : State} (h : Inv s) (hq : Quiet s s') : Inv s' := by
  have hclosed := hq.closed_eq h.closed_eq
  have hlt : ∀ n, s'.close = .read n → n < s'.next := by
    intro n hread
    rw [hq.next_eq]
    exact h.read_lt n (hq.read hread)
  rcases hq.reconnect with heq | ⟨hpending, hold, hnew⟩
  · constructor
    · rw [hq.live_eq, hq.socket_eq, heq]
      exact h.live_eq
    · rw [hq.live_eq, hq.next_eq]
      exact h.live_lt
    · rw [hq.socket_eq, hq.next_eq]
      exact h.socket_lt
    · rw [heq, hq.socket_eq, hq.live_eq]
      exact h.closedOld
    · rw [heq, hq.socket_eq, hq.live_eq]
      exact h.connected
    · exact hclosed
    · exact hlt
    · intro n hread
      rw [heq]
      exact h.read_ne n (hq.read hread)
  · refine ⟨fun n hn => ?_, ?_, ?_, fun hr => absurd hr hold, fun n hr => absurd hr (hnew n), hclosed,
      hlt, fun n _ => hnew n⟩
    · rw [hq.live_eq] at hn
      rw [hq.socket_eq]
      exact Or.inl ((h.live_eq n hn).resolve_right (hpending n))
    · rw [hq.live_eq, hq.next_eq]
      exact h.live_lt
    · rw [hq.socket_eq, hq.next_eq]
      exact h.socket_lt

/-- Once the old socket is closed, no socket is open. -/
theorem Inv.closeOld {s : State} (h : Inv s) (hchecked : s.reconnect = .checked) {p : Progress}
    (hp : ∀ n, p ≠ .connected n) :
    Inv { s with live := s.live.erase s.socket, reconnect := p } := by
  have hlive : ∀ n, n ∉ s.live.erase s.socket := by
    intro n hn
    obtain ⟨hne, hn⟩ := Finset.mem_erase.1 hn
    rcases h.live_eq n hn with heq | heq
    · exact hne heq
    · rw [hchecked] at heq
      cases heq
  exact ⟨fun n hn => absurd hn (hlive n), fun n hn => absurd hn (hlive n), h.socket_lt,
    fun _ => hlive _, fun n hr => absurd hr (hp n), h.closed_eq, h.read_lt, fun n _ => hp n⟩

/-- The new socket is the only one that is open. -/
theorem Inv.connect {s : State} (h : Inv s) (hold : s.reconnect = .closedOld) :
    Inv { s with live := insert s.next s.live, next := s.next + 1, reconnect := .connected s.next } := by
  have hsocket := h.closedOld hold
  refine ⟨fun n hn => ?_, fun n hn => ?_, h.socket_lt.trans (Nat.lt_succ_self _),
    fun hr => (by cases hr), fun n hr => ?_, h.closed_eq,
    fun n hread => (h.read_lt n hread).trans (Nat.lt_succ_self _), fun n hread hr => ?_⟩
  · rcases Finset.mem_insert.1 hn with rfl | hn
    · exact Or.inr rfl
    · rcases h.live_eq n hn with rfl | heq
      · exact absurd hn hsocket
      · rw [hold] at heq
        cases heq
  · rcases Finset.mem_insert.1 hn with rfl | hn
    · exact Nat.lt_succ_self _
    · exact (h.live_lt n hn).trans (Nat.lt_succ_self _)
  · cases hr
    refine ⟨Finset.mem_insert_self _ _, fun hmem => ?_⟩
    rcases Finset.mem_insert.1 hmem with heq | hmem
    · exact absurd heq h.socket_lt.ne
    · exact hsocket hmem
  · cases hr
    exact (h.read_lt _ hread).ne rfl

theorem Inv.assign {s : State} (h : Inv s) {n : ℕ} (hconnected : s.reconnect = .connected n) :
    Inv { s with socket := n, reconnect := .assigned } := by
  obtain ⟨hmem, hsocket⟩ := h.connected n hconnected
  refine ⟨fun m hm => ?_, h.live_lt, h.live_lt n hmem, fun hr => (by cases hr),
    fun m hr => (by cases hr), h.closed_eq, h.read_lt, fun m _ hr => (by cases hr)⟩
  rcases h.live_eq m hm with rfl | heq
  · exact absurd hm hsocket
  · rw [hconnected] at heq
    cases heq
    exact Or.inl rfl

/-- `close` reads the socket of the field, not the one that waits. -/
theorem Inv.readSocket {s : State} (h : Inv s) (hclosing : s.close = .closing) :
    Inv { s with close := .read s.socket } := by
  have hclosed : s.closed = true := h.closed_eq (by rw [hclosing]; decide)
  refine ⟨h.live_eq, h.live_lt, h.socket_lt, h.closedOld, h.connected, fun _ => hclosed,
    fun n hread => ?_, fun n hread hr => ?_⟩
  · cases hread
    exact h.socket_lt
  · cases hread
    obtain ⟨hmem, hsocket⟩ := h.connected _ hr
    exact hsocket hmem

/-- The socket that waits to be assigned stays open. -/
theorem Inv.closeSocket {s : State} (h : Inv s) {n : ℕ} (hread : s.close = .read n) :
    Inv { s with live := s.live.erase n, close := .done } := by
  have hclosed : s.closed = true := h.closed_eq (by rw [hread]; simp)
  refine ⟨fun m hm => h.live_eq m (Finset.mem_of_mem_erase hm),
    fun m hm => h.live_lt m (Finset.mem_of_mem_erase hm), h.socket_lt,
    fun hr hmem => h.closedOld hr (Finset.mem_of_mem_erase hmem), fun m hr => ?_, fun _ => hclosed,
    fun m hm => (by cases hm), fun m hm => (by cases hm)⟩
  obtain ⟨hmem, hsocket⟩ := h.connected m hr
  have hne : m ≠ n := fun heq => h.read_ne n hread (heq ▸ hr)
  exact ⟨Finset.mem_erase.2 ⟨hne, hmem⟩, fun hs => hsocket (Finset.mem_of_mem_erase hs)⟩

theorem Inv.step {s s' : State} {a : Action} (h : Inv s) (hs : Reconnect.step s a = some s') :
    Inv s' := by
  rcases step_cases hs with hquiet | ⟨hchecked, p, hp, rfl⟩ | ⟨hold, rfl⟩ | ⟨-, n, hconnected, rfl⟩ |
    ⟨hclosing, rfl⟩ | ⟨n, hread, rfl⟩
  · exact h.of_quiet hquiet
  · exact h.closeOld hchecked (by rcases hp with rfl | rfl <;> simp)
  · exact h.connect hold
  · exact h.assign hconnected
  · exact h.readSocket hclosing
  · exact h.closeSocket hread

theorem inv_run {as : List Action} {s : State} (hr : run Reconnect.step init as = some s) : Inv s :=
  run_keeps (fun _ _ _ hi hs => hi.step hs) inv_init hr

/-! ### Runs that leave the connector shut -/

/-- What `close` has read is still the socket of the field, and when it has ended that is closed. -/
structure SocketClosed (s : State) : Prop where
  read_eq : ∀ n, s.close = .read n → n = s.socket
  notMem : s.close = .done → s.socket ∉ s.live

/-- **Step lemma.** A socket that is assigned in time is closed in the end. -/
theorem SocketClosed.step {s s' : State} {a : Action} (hi : Inv s) (h : SocketClosed s)
    (hC : InTime s a) (hs : Reconnect.step s a = some s') : SocketClosed s' := by
  rcases step_cases hs with hquiet | ⟨-, p, -, rfl⟩ | ⟨-, rfl⟩ | ⟨rfl, n, -, rfl⟩ | ⟨-, rfl⟩ |
    ⟨n, hread, rfl⟩
  · refine ⟨fun n hread => ?_, fun hdone => ?_⟩
    · rw [hquiet.socket_eq]
      exact h.read_eq n (hquiet.read hread)
    · rw [hquiet.socket_eq, hquiet.live_eq]
      rcases hquiet.close with ⟨hclose, -⟩ | ⟨hclose, -⟩
      · exact h.notMem (hclose.symm.trans hdone)
      · rw [hclose] at hdone
        cases hdone
  · exact ⟨h.read_eq, fun _ => Finset.notMem_erase _ _⟩
  · refine ⟨h.read_eq, fun hdone hmem => ?_⟩
    rcases Finset.mem_insert.1 hmem with heq | hmem
    · exact hi.socket_lt.ne heq
    · exact h.notMem hdone hmem
  · -- `close` has yet to read the field
    constructor
    · intro m hread
      dsimp only at hread
      rcases hC rfl with hclose | hclose <;> rw [hclose] at hread <;> cases hread
    · intro hdone
      dsimp only at hdone
      rcases hC rfl with hclose | hclose <;> rw [hclose] at hdone <;> cases hdone
  · refine ⟨fun n hread => ?_, fun hdone => (by cases hdone)⟩
    cases hread
    rfl
  · refine ⟨fun m hm => (by cases hm), fun _ => ?_⟩
    rw [h.read_eq n hread]
    exact Finset.notMem_erase _ _

/-- Nothing is open, and `reconnect` will find `closed` set. -/
structure Off (s : State) : Prop where
  finished : Finished s
  closed : s.closed = true
  live : s.live = ∅

theorem Off.step {s s' : State} {a : Action} (h : Off s) (hs : Reconnect.step s a = some s') :
    Off s' ∧ s'.sent = s.sent := by
  obtain ⟨⟨hidle, hdone⟩, hclosed, hlive⟩ := h
  cases a with
  | check =>
    rw [Reconnect.step, if_pos hidle, if_pos hclosed] at hs
    cases hs
    exact ⟨⟨⟨hidle, hdone⟩, hclosed, hlive⟩, rfl⟩
  | request =>
    rw [Reconnect.step, if_pos hidle] at hs
    cases hs
    exact ⟨⟨⟨hidle, hdone⟩, hclosed, hlive⟩, if_neg (by rw [hlive]; exact Finset.notMem_empty _)⟩
  | _ => simp [Reconnect.step, hidle, hdone] at hs

theorem Off.shut {s : State} (h : Off s) : Shut s := by
  intro as s' hr
  have hkeep : Off s' ∧ s'.sent = s.sent :=
    run_keeps (I := fun t => Off t ∧ t.sent = s.sent)
      (fun t a t' ht hs => ⟨(ht.1.step hs).1, (ht.1.step hs).2.trans ht.2⟩) ⟨h, rfl⟩ hr
  exact ⟨hkeep.1.live, hkeep.2⟩

/-- `close` has ended or has read another socket, and a socket is open that nobody will close. -/
structure Leaked (s : State) : Prop where
  past : s.close = .done ∨ ∃ n, s.close = .read n ∧ n ≠ s.socket
  closed : s.closed = true
  open_socket : s.socket ∈ s.live
  behind : s.reconnect = .idle ∨ s.reconnect = .assigned ∨ s.reconnect = .ready

theorem Leaked.step {s s' : State} {a : Action} (h : Leaked s) (hs : Reconnect.step s a = some s') :
    Leaked s' := by
  obtain ⟨hpast, hclosed, hopen, hbehind⟩ := h
  cases a with
  | check =>
    dsimp only [Reconnect.step] at hs
    rw [if_pos hclosed] at hs
    split_ifs at hs
    cases hs
    exact ⟨hpast, hclosed, hopen, hbehind⟩
  | closeOld ok => rcases hbehind with h | h | h <;> simp [Reconnect.step, h] at hs
  | connect ok => rcases hbehind with h | h | h <;> simp [Reconnect.step, h] at hs
  | assign => rcases hbehind with h | h | h <;> simp [Reconnect.step, h] at hs
  | getStreams ok =>
    dsimp only [Reconnect.step] at hs
    split_ifs at hs
    · cases hs
      exact ⟨hpast, hclosed, hopen, Or.inr (Or.inr rfl)⟩
    · cases hs
      exact ⟨hpast, hclosed, hopen, Or.inl rfl⟩
  | finish initData =>
    dsimp only [Reconnect.step] at hs
    split_ifs at hs
    · cases hs
      exact ⟨hpast, hclosed, hopen, Or.inl rfl⟩
    · cases hs
      exact ⟨hpast, hclosed, hopen, Or.inl rfl⟩
  | request =>
    dsimp only [Reconnect.step] at hs
    split_ifs at hs
    cases hs
    exact ⟨hpast, hclosed, hopen, hbehind⟩
  | setClosed => rcases hpast with hdone | ⟨n, hread, -⟩ <;> simp [Reconnect.step, *] at hs
  | readSocket => rcases hpast with hdone | ⟨n, hread, -⟩ <;> simp [Reconnect.step, *] at hs
  | closeSocket =>
    dsimp only [Reconnect.step] at hs
    split at hs <;> cases hs
    rename_i n hread
    have hne : n ≠ s.socket := by
      rcases hpast with hdone | ⟨m, hm, hne⟩
      · rw [hread] at hdone
        cases hdone
      · rw [hread] at hm
        cases hm
        exact hne
    exact ⟨Or.inl rfl, hclosed, Finset.mem_erase.2 ⟨hne.symm, hopen⟩, hbehind⟩

/-- An assignment behind the read of `close` leaves its socket open. -/
theorem leaked_of_late {s s' : State} {a : Action} (hi : Inv s) (hlate : ¬ InTime s a)
    (hs : Reconnect.step s a = some s') : Leaked s' := by
  unfold InTime at hlate
  push Not at hlate
  obtain ⟨rfl, hbefore, hclosing⟩ := hlate
  dsimp only [Reconnect.step] at hs
  split at hs
  · rename_i m hconnected
    cases hs
    refine ⟨?_, hi.closed_eq hbefore, (hi.connected m hconnected).1, Or.inr (Or.inl rfl)⟩
    cases hclose : s.close with
    | before => exact absurd hclose hbefore
    | closing => exact absurd hclose hclosing
    | read n => exact Or.inr ⟨n, rfl, fun heq => hi.read_ne n hclose (heq ▸ hconnected)⟩
    | done => exact Or.inl rfl
  · cases hs

/-- **Closing a connector.** When both calls have ended, no socket is open and no request will be sent
exactly when every new socket was assigned before `close` had read the field. -/
theorem shut_iff {as : List Action} {s : State} (hr : run Reconnect.step init as = some s)
    (hfinished : Finished s) : Shut s ↔ Along Reconnect.step InTime init as := by
  constructor
  · intro hshut
    by_contra hlate
    obtain ⟨as₁, a, as₂, s₁, s₂, -, -, h₁, ha, hstep, h₂⟩ := exists_of_not_along hlate hr
    have hleaked : Leaked s := run_keeps (fun _ _ _ h hs => h.step hs)
      (leaked_of_late (inv_run h₁) ha hstep) h₂
    have hlive := (hshut [] s rfl).1
    have hopen := hleaked.open_socket
    rw [hlive] at hopen
    exact Finset.notMem_empty _ hopen
  · intro hC
    have hi := inv_run hr
    have hclosed : SocketClosed s := by
      have hkeep : Inv s ∧ SocketClosed s := Along.keeps
        (I := fun t => Inv t ∧ SocketClosed t)
        (fun t a t' ht ha hs => ⟨ht.1.step hs, ht.2.step ht.1 ha hs⟩)
        ⟨inv_init, fun n h => (by cases h), fun h => (by cases h)⟩ hC hr
      exact hkeep.2
    obtain ⟨hidle, hdone⟩ := hfinished
    have hoff : Off s := by
      refine ⟨⟨hidle, hdone⟩, hi.closed_eq (by rw [hdone]; decide), ?_⟩
      refine Finset.eq_empty_of_forall_notMem fun n hn => ?_
      rcases hi.live_eq n hn with rfl | heq
      · exact hclosed.notMem hdone hn
      · rw [hidle] at heq
        cases heq
    exact hoff.shut

/-- The connector is closed after it has reconnected. -/
theorem shut_after : ∃ s, run Reconnect.step init [.check, .closeOld true, .connect true, .assign,
    .setClosed, .readSocket, .getStreams true, .finish true, .closeSocket, .check] = some s ∧ Shut s :=
  ⟨_, rfl, (@shut_iff [.check, .closeOld true, .connect true, .assign, .setClosed, .readSocket,
    .getStreams true, .finish true, .closeSocket, .check] _ rfl ⟨rfl, rfl⟩).2
      (by simp [Along, InTime, step, init, State.write])⟩

/-- `close` reads the field between the check and the assignment: the new socket is left open, and a
request is sent. -/
theorem not_shut_late : ∃ s, run Reconnect.step init [.check, .setClosed, .readSocket, .closeOld true,
    .connect true, .assign, .closeSocket, .getStreams true, .finish false] = some s ∧
      Finished s ∧ s.live = {1} ∧ (∃ s', step s .request = some s' ∧ s'.sent = s.sent + 1) ∧
      ¬ Shut s := by
  refine ⟨_, rfl, ⟨rfl, rfl⟩, by decide, ⟨_, rfl, rfl⟩, fun h => ?_⟩
  have hempty := (h [] _ rfl).1
  exact absurd hempty (by decide)

end P2Player.Stream.Reconnect
