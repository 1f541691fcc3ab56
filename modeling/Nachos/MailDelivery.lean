import Mathlib.Data.List.Forall2
import Nachos.PostOffice
import Nachos.SynchList

/-!
# Mail delivery

Machines that send each other mail: `Send` on any machine, the polling
interrupt of the network, the postal worker, and any number of threads in
`Receive`, in any interleaving.

A machine is the datagrams that wait at its socket, the one-packet buffer of
`NetworkInput`, the semaphore `messageAvailable`, the postal worker and its
buffer, and the mailboxes, each a `SynchList` with the steps it has there. A
`Mail` object goes by its address (`Item`), which is what `List::Append`
compares. A datagram may be lost on the way (`lost`) or at the socket
(`drop`).

Of `Send` only the moment counts at which the datagram goes to the socket.
The lock and the semaphore around it restrict the order in which the threads
of a machine come to that point; here every order is possible.

`wire` records, for each machine, the messages that were put on the wire for
it. A message is then in one place at a time: at the socket, in the network
buffer, with the worker, in a mailbox, or received (`MachineOK`).
-/

namespace Nachos

namespace Net

open Run SynchList

/-! ## Machines -/

/-- A `Mail *`. -/
structure Item where
  address : Nat
  mail : Mail
deriving DecidableEq

/-- Where the postal worker is. -/
inductive Worker where
  /-- in `P` of `messageAvailable` -/
  | waiting
  /-- that `P` has returned -/
  | taken
  /-- in `Append` of a mailbox -/
  | putting (box : Int)

/-- The worker owes a call of `NetworkInput::Receive`. -/
def Worker.due : Worker → Int
  | .taken => 1
  | _ => 0

/-- The threads of a machine that use its mailboxes: the worker is `none`. -/
abbrev Thread (R : Type) := Option R

structure Machine (R : Type) where
  numBoxes : Int
  sock : List Datagram
  net : NetworkInput
  messageAvailable : Semaphore Unit
  worker : Worker
  buffer : ByteMemory.Memory
  boxes : Int → SynchList.State (Thread R) Item
  heap : Nat

/-- The machines, by host name, and what was put on the wire for each. -/
structure System (R : Type) where
  machine : BitVec 32 → Machine R
  wire : BitVec 32 → List Mail

inductive Action (R : Type) where
  | send (host : BitVec 32) (pktHdr : PacketHeader) (mailHdr : MailHeader)
      (data junk junk' : ByteMemory.Memory) (lost : Bool)
  | drop (host : BitVec 32) (i : Nat)
  | poll (host : BitVec 32) (junk : ByteMemory.Memory)
  | work (host : BitVec 32)
  | receive (host : BitVec 32) (r : R) (box : Int)
  | run (host : BitVec 32) (r : R) (box : Int)

variable {R : Type} [DecidableEq R]

namespace Machine

omit [DecidableEq R] in
/-- A machine at the start. -/
def init (numBoxes : Int) (net : NetworkInput) (buffer : ByteMemory.Memory) : Machine R where
  numBoxes := numBoxes
  sock := []
  net := { net with inHdr := { net.inHdr with length := 0 } }
  messageAvailable := .new 0
  worker := .waiting
  buffer := buffer
  boxes := fun _ => .init
  heap := 0

def setBox (m : Machine R) (box : Int) (b : SynchList.State (Thread R) Item) : Machine R :=
  { m with boxes := Function.update m.boxes box b }

/-- `NetworkInput::CallBack`, with the `V` of `PostOfficeInput::CallBack`. -/
def poll (m : Machine R) (host : BitVec 32) (junk : ByteMemory.Memory) : Option (Machine R) :=
  (m.net.callBack host m.sock junk).map fun r =>
    { m with
      net := r.2.1, sock := r.2.2,
      messageAvailable := if r.1 then m.messageAvailable.v.2 else m.messageAvailable }

/-- A step of the postal worker. -/
def work (m : Machine R) : Option (Machine R) :=
  match m.worker with
  | .waiting =>
      if m.messageAvailable.queue ≠ [] then none
      else
        some { m with
          messageAvailable := (m.messageAvailable.p ()).2,
          worker := if (m.messageAvailable.p ()).1 then .taken else .waiting }
  | .taken =>
      (postalDelivery m.numBoxes m.net m.buffer).bind fun r =>
        (SynchList.step (m.boxes r.1) (.call none (.append ⟨m.heap, r.2.1⟩))).map fun b =>
          ({ m with
            net := r.2.2.1, buffer := r.2.2.2, worker := .putting r.1,
            heap := m.heap + 1 } : Machine R).setBox r.1 b
  | .putting box =>
      match (m.boxes box).pc none with
      | .idle => some { m with worker := .waiting }
      | _ => (SynchList.step (m.boxes box) (.run none)).map (m.setBox box)

/-- `PostOfficeInput::Receive` is called. -/
def receive (m : Machine R) (r : R) (box : Int) : Option (Machine R) :=
  if 0 ≤ box ∧ box < m.numBoxes then
    (SynchList.step (m.boxes box) (.call (some r) .removeFront)).map (m.setBox box)
  else none

/-- A thread goes on in `Receive`. -/
def run (m : Machine R) (r : R) (box : Int) : Option (Machine R) :=
  (SynchList.step (m.boxes box) (.run (some r))).map (m.setBox box)

end Machine

namespace System

def setMachine (s : System R) (host : BitVec 32) (m : Machine R) : System R :=
  { s with machine := Function.update s.machine host m }

omit [DecidableEq R] in
/-- The machines at the start. -/
def init (numBoxes : BitVec 32 → Int) (net : BitVec 32 → NetworkInput)
    (buffer : BitVec 32 → ByteMemory.Memory) : System R :=
  ⟨fun h => .init (numBoxes h) (net h) (buffer h), fun _ => []⟩

def step (s : System R) : Action R → Option (System R)
  | .send host pktHdr mailHdr data junk junk' lost =>
      (Net.send host pktHdr mailHdr data junk junk').map fun r =>
        if lost then s
        else
          { s.setMachine r.1
              { s.machine r.1 with sock := (s.machine r.1).sock ++ [r.2] } with
            wire := Function.update s.wire r.1
              (s.wire r.1 ++ (Mail.new (filledIn host pktHdr mailHdr) mailHdr data 0).toList) }
  | .drop host i =>
      some (s.setMachine host { s.machine host with sock := (s.machine host).sock.eraseIdx i })
  | .poll host junk => ((s.machine host).poll host junk).map (s.setMachine host)
  | .work host => (s.machine host).work.map (s.setMachine host)
  | .receive host r box => ((s.machine host).receive r box).map (s.setMachine host)
  | .run host r box => ((s.machine host).run r box).map (s.setMachine host)

end System

/-! ## Where the mail is -/

/-- Whether a mail is for a box. -/
def forBox (box : Int) (mail : Mail) : Bool := mail.mailHdr.to.toInt == box

/-- The datagram of this mail, sent to this host. -/
def Carries (host : BitVec 32) (d : Datagram) (mail : Mail) : Prop :=
  ∃ (sender : BitVec 32) (pktHdr : PacketHeader) (mailHdr : MailHeader)
    (data junk junk' : ByteMemory.Memory) (hsize : mailHdr.size ≤ 40),
    Net.send sender pktHdr mailHdr data junk junk' = some (host, d)
      ∧ mail = message sender pktHdr mailHdr data hsize

/-- The mail in the network buffer. -/
def Buffered (net : NetworkInput) : Option Mail → Prop
  | none => net.inHdr.length = 0
  | some mail => Holds net mail

/-- The mail that was put into a box, or that the worker is about to put
there. -/
def Machine.put (m : Machine R) (box : Int) : List Mail :=
  ((m.boxes box).appended ++ ((m.boxes box).pc none).inFlight).map Item.mail

/-- The mail for a box on its way from the wire. -/
structure Path (host : BitVec 32) (m : Machine R) (wire : List Mail) (inbox : Option Mail)
    (sock : List Mail) : Prop where
  waits : List.Forall₂ (Carries host) m.sock sock
  buffered : Buffered m.net inbox
  value : 0 ≤ m.messageAvailable.value
  signal : m.messageAvailable.value + m.worker.due = inbox.toList.length
  boxes : ∀ box, SynchList.Inv (m.boxes box)
  worker : ∀ box, m.worker ≠ .putting box → (m.boxes box).pc none = .idle
  receivers : ∀ box r, ((m.boxes box).pc (some r)).inFlight = []
  order : ∀ box, (m.put box ++ (inbox.toList ++ sock).filter (forBox box)).Sublist
    (wire.filter (forBox box))

def MachineOK (host : BitVec 32) (m : Machine R) (wire : List Mail) : Prop :=
  ∃ inbox sock, Path host m wire inbox sock

section Steps

variable {host : BitVec 32} {m m' : Machine R} {wire : List Mail} {inbox : Option Mail}
  {sock : List Mail}

omit [DecidableEq R] in
theorem due_nonneg (w : Worker) : 0 ≤ w.due := by
  cases w <;> simp [Worker.due]

theorem Path.init (numBoxes : Int) (net : NetworkInput) (buffer : ByteMemory.Memory) :
    Path host (Machine.init numBoxes net buffer : Machine R) [] none [] :=
  ⟨.nil, rfl, le_rfl, rfl, fun _ => Inv.init, fun _ _ => rfl, fun _ _ => rfl, fun _ => .slnil⟩

/-- A message arrives at the socket. -/
theorem Path.arrive (h : Path host m wire inbox sock) {d : Datagram} {mail : Mail}
    (hd : Carries host d mail) :
    Path host { m with sock := m.sock ++ [d] } (wire ++ [mail]) inbox (sock ++ [mail]) := by
  refine ⟨List.rel_append h.waits (.cons hd .nil), h.buffered, h.value, h.signal, h.boxes, h.worker,
    h.receivers, fun box => ?_⟩
  have hleft : (inbox.toList ++ (sock ++ [mail])).filter (forBox box)
      = (inbox.toList ++ sock).filter (forBox box) ++ [mail].filter (forBox box) := by
    rw [← List.append_assoc, List.filter_append]
  rw [hleft, List.filter_append wire, ← List.append_assoc]
  exact (h.order box).append (List.Sublist.refl _)

omit [DecidableEq R] in
theorem forall₂_eraseIdx {α β : Type} {r : α → β → Prop} {l : List α} {l' : List β}
    (h : List.Forall₂ r l l') (i : Nat) : List.Forall₂ r (l.eraseIdx i) (l'.eraseIdx i) := by
  induction h generalizing i with
  | nil => exact .nil
  | cons hr hrest ih =>
      cases i with
      | zero => exact hrest
      | succ i => exact .cons hr (ih i)

/-- A datagram is lost. -/
theorem Path.drop (h : Path host m wire inbox sock) (i : Nat) :
    Path host { m with sock := m.sock.eraseIdx i } wire inbox (sock.eraseIdx i) := by
  refine ⟨forall₂_eraseIdx h.waits i, h.buffered, h.value, h.signal, h.boxes, h.worker, h.receivers,
    fun box => List.Sublist.trans ?_ (h.order box)⟩
  refine (List.Sublist.refl _).append (List.Sublist.filter _ ?_)
  exact (List.Sublist.refl _).append (List.eraseIdx_sublist sock i)

/-- **The polling interrupt** takes the first datagram into the empty
buffer. -/
theorem Path.poll (h : Path host m wire inbox sock) {junk : ByteMemory.Memory}
    (hs : m.poll host junk = some m') : MachineOK host m' wire := by
  obtain ⟨r, hr, rfl⟩ := Option.map_eq_some_iff.mp hs
  cases inbox with
  | some mail =>
      have hnone : m.net.callBack host m.sock junk = some (false, m.net, m.sock) :=
        if_pos (Holds.length_ne_zero h.buffered)
      obtain rfl := Option.some.inj (hr.symm.trans hnone)
      exact ⟨some mail, sock, h⟩
  | none =>
      have hempty : m.net.inHdr.length = 0 := h.buffered
      have hsock := h.waits
      cases hds : m.sock with
      | nil =>
          have hnone : m.net.callBack host m.sock junk = some (false, m.net, m.sock) := by
            rw [hds, NetworkInput.callBack, if_neg (not_not.mpr hempty)]
          obtain rfl := Option.some.inj (hr.symm.trans hnone)
          exact ⟨none, sock, h⟩
      | cons d rest =>
          rw [hds] at hsock
          obtain ⟨mail, mails, hd, hrest, rfl⟩ := List.forall₂_cons_left_iff.mp hsock
          obtain ⟨sender, pktHdr, mailHdr, data, junk', junk'', hsize, hsend, rfl⟩ := hd
          obtain ⟨net', hsize', hcall, hholds⟩ := callBack_of_send hsend hempty rest junk
          rw [← hds] at hcall
          obtain rfl := Option.some.inj (hr.symm.trans hcall)
          have hsig := h.signal
          have hval := h.value
          -- nothing was signalled, so the worker is not past its `P`
          have hdue := due_nonneg m.worker
          have hzero : m.messageAvailable.value = 0 := by
            rw [Option.toList_none, List.length_nil] at hsig
            omega
          have hv : m.messageAvailable.v.2.value = 1 := by
            rw [Semaphore.v_value, hzero]
            rfl
          refine ⟨some (message sender pktHdr mailHdr data hsize), mails, hrest, hholds, ?_, ?_,
            h.boxes, h.worker, h.receivers, fun box => ?_⟩
          · simp only [if_pos, hv]
            decide
          · simp only [if_pos, hv]
            rw [hzero, Option.toList_none, List.length_nil] at hsig
            rw [Option.toList_some, List.length_singleton]
            omega
          · exact h.order box

/-- A step in one box that leaves the worker's part of it as it is. -/
theorem Path.setBox (h : Path host m wire inbox sock) {box : Int}
    {b : SynchList.State (Thread R) Item} (hinv : SynchList.Inv b)
    (hworker : m.worker ≠ .putting box → b.pc none = .idle)
    (hrecv : ∀ r, (b.pc (some r)).inFlight = [])
    (hput : b.appended ++ (b.pc none).inFlight
      = (m.boxes box).appended ++ ((m.boxes box).pc none).inFlight) :
    Path host (m.setBox box b) wire inbox sock := by
  have hbox : ∀ c, (m.setBox box b).boxes c = if c = box then b else m.boxes c :=
    fun c => Function.update_apply ..
  have hsame : ∀ c, (m.setBox box b).put c = m.put c := by
    intro c
    rw [Machine.put, Machine.put, hbox]
    split
    next hc => rw [hput, hc]
    next => rfl
  refine ⟨h.waits, h.buffered, h.value, h.signal, fun c => ?_, fun c hc => ?_, fun c r => ?_,
    fun c => ?_⟩
  · rw [hbox]
    split
    next => exact hinv
    next => exact h.boxes c
  · rw [hbox]
    split
    next he => exact hworker (he ▸ hc)
    next => exact h.worker c hc
  · rw [hbox]
    split
    next => exact hrecv r
    next => exact h.receivers c r
  · rw [hsame]
    exact h.order c

theorem Path.receive (h : Path host m wire inbox sock) {r : R} {box : Int}
    (hs : m.receive r box = some m') : Path host m' wire inbox sock := by
  rw [Machine.receive] at hs
  split at hs
  next =>
      obtain ⟨b, hb, rfl⟩ := Option.map_eq_some_iff.mp hs
      obtain ⟨-, rfl⟩ := call_eq_some hb
      have hother : ∀ t, t ≠ some r →
          ((m.boxes box).goto (some r) (.acquire .removeFront)).pc t = (m.boxes box).pc t :=
        fun t ht => pc_goto_other ht
      refine h.setBox ((h.boxes box).step hb) (fun hw => ?_) (fun r' => ?_) ?_
      · rw [hother none (by simp)]
        exact h.worker box hw
      · by_cases hr : r' = r
        · rw [hr, pc_goto_self]
          rfl
        · rw [hother (some r') (by simpa using hr)]
          exact h.receivers box r'
      · rw [hother none (by simp)]
        rfl
  next => cases hs

theorem Path.run (h : Path host m wire inbox sock) {r : R} {box : Int}
    (hs : m.run r box = some m') : Path host m' wire inbox sock := by
  obtain ⟨b, hb, rfl⟩ := Option.map_eq_some_iff.mp hs
  obtain ⟨hcons, hother⟩ := run_conserves hb
  -- a receiver has nothing to append
  have hboth : b.appended = (m.boxes box).appended ∧ (b.pc (some r)).inFlight = [] := by
    rcases hcons with ⟨happ, hflight⟩ | ⟨item, hitem, -⟩
    · exact ⟨happ, hflight.trans (h.receivers box r)⟩
    · rw [h.receivers box r] at hitem
      exact absurd hitem (List.cons_ne_nil _ _).symm
  refine h.setBox ((h.boxes box).step hb) (fun hw => ?_) (fun r' => ?_) ?_
  · rw [hother none (by simp)]
    exact h.worker box hw
  · by_cases hr : r' = r
    · rw [hr]
      exact hboth.2
    · rw [hother (some r') (by simpa using hr)]
      exact h.receivers box r'
  · rw [hboth.1, hother none (by simp)]

/-- The worker goes on in `Append`. -/
theorem Path.put (h : Path host m wire inbox sock) {box : Int} (hw : m.worker = .putting box)
    (hs : (SynchList.step (m.boxes box) (.run none)).map (m.setBox box) = some m') :
    Path host m' wire inbox sock := by
  obtain ⟨b, hb, rfl⟩ := Option.map_eq_some_iff.mp hs
  obtain ⟨hcons, hother⟩ := run_conserves hb
  refine h.setBox ((h.boxes box).step hb) (fun hne => absurd hw hne) (fun r => ?_) ?_
  · rw [hother (some r) (by simp)]
    exact h.receivers box r
  · rcases hcons with ⟨happ, hflight⟩ | ⟨item, hitem, hnone, happ⟩
    · rw [happ, hflight]
    · rw [happ, hitem, hnone, List.append_nil]

/-- The worker waits for a message. -/
theorem Path.wait (h : Path host m wire inbox sock) (hw : m.worker = .waiting)
    (hs : m.work = some m') : Path host m' wire inbox sock := by
  simp only [Machine.work, hw] at hs
  have hsig := h.signal
  have hval := h.value
  have hidle : ∀ box, (m.boxes box).pc none = .idle := fun box => h.worker box (by simp [hw])
  rw [hw] at hsig
  split at hs
  next => cases hs
  next =>
      by_cases hzero : m.messageAvailable.value = 0
      · rw [Semaphore.p_sleep hzero] at hs
        obtain rfl := Option.some.inj hs
        exact ⟨h.waits, h.buffered, h.value, hsig, h.boxes, fun box _ => hidle box, h.receivers,
          h.order⟩
      · rw [Semaphore.p_pass hzero] at hs
        obtain rfl := Option.some.inj hs
        have hlen : inbox.toList.length ≤ 1 := by cases inbox <;> simp
        have hone : m.messageAvailable.value = 1 := by
          simp only [Worker.due] at hsig
          omega
        refine ⟨h.waits, h.buffered, ?_, ?_, h.boxes, fun box _ => hidle box, h.receivers, h.order⟩
        · simp only [hone]
          decide
        · simp only [hone, Worker.due] at hsig ⊢
          rw [← hsig]
          decide

/-- The mail of the network buffer is in the worker's hand, at the start of
`Append`. -/
def Machine.handed (m : Machine R) (mail : Mail) (buffer : ByteMemory.Memory) : Machine R :=
  ({ m with
    net := { m.net with inHdr := { m.net.inHdr with length := 0 } }, buffer := buffer,
    worker := .putting mail.mailHdr.to.toInt, heap := m.heap + 1 } : Machine R).setBox
      mail.mailHdr.to.toInt
      ((m.boxes mail.mailHdr.to.toInt).goto none (.acquire (.append ⟨m.heap, mail⟩)))

theorem boxes_handed (m : Machine R) (mail : Mail) (buffer : ByteMemory.Memory) (box : Int) :
    (m.handed mail buffer).boxes box
      = if box = mail.mailHdr.to.toInt then
          (m.boxes mail.mailHdr.to.toInt).goto none (.acquire (.append ⟨m.heap, mail⟩))
        else m.boxes box :=
  Function.update_apply ..

theorem put_handed {mail : Mail} (hidle : (m.boxes mail.mailHdr.to.toInt).pc none = .idle)
    (buffer : ByteMemory.Memory) (box : Int) :
    (m.handed mail buffer).put box = m.put box ++ [mail].filter (forBox box) := by
  rw [Machine.put, Machine.put, boxes_handed]
  by_cases hbox : box = mail.mailHdr.to.toInt
  · subst hbox
    rw [if_pos rfl, pc_goto_self, hidle]
    simp [forBox, State.goto, Pc.inFlight]
  · rw [if_neg hbox]
    simp [forBox, Ne.symm hbox]

/-- The mail goes from the network buffer to the worker's hand. -/
theorem Path.hand {mail : Mail} (h : Path host m wire (some mail) sock) (hw : m.worker = .taken)
    (buffer : ByteMemory.Memory)
    (hinv : SynchList.Inv ((m.boxes mail.mailHdr.to.toInt).goto none
      (.acquire (.append ⟨m.heap, mail⟩)))) :
    Path host (m.handed mail buffer) wire none sock := by
  have hidle : ∀ box, (m.boxes box).pc none = .idle := fun box => h.worker box (by simp [hw])
  have hsig := h.signal
  rw [hw] at hsig
  refine ⟨h.waits, rfl, h.value, ?_, fun box => ?_, fun box hbox => ?_, fun box r => ?_,
    fun box => ?_⟩
  · simp only [Worker.due, Option.toList_some, List.length_singleton] at hsig
    simp only [Machine.handed, Machine.setBox, Worker.due, Option.toList_none, List.length_nil]
    omega
  · rw [boxes_handed]
    split
    next => exact hinv
    next => exact h.boxes box
  · have hne : box ≠ mail.mailHdr.to.toInt := fun he => hbox (by rw [he]; rfl)
    rw [boxes_handed, if_neg hne]
    exact hidle box
  · rw [boxes_handed]
    split
    next =>
        rw [pc_goto_other (by simp)]
        exact h.receivers _ r
    next => exact h.receivers box r
  · have hmove : m.put box ++ ((some mail).toList ++ sock).filter (forBox box)
        = m.put box ++ [mail].filter (forBox box)
          ++ ((none : Option Mail).toList ++ sock).filter (forBox box) := by
      rw [Option.toList_some, Option.toList_none, List.nil_append, List.filter_append,
        List.append_assoc]
    rw [put_handed (hidle _), ← hmove]
    exact h.order box

/-- The worker has its signal, so there is mail in the network buffer. -/
theorem Path.deliver (h : Path host m wire inbox sock) (hw : m.worker = .taken)
    (hs : m.work = some m') : Path host m' wire none sock := by
  simp only [Machine.work, hw] at hs
  obtain ⟨r, hr, hs⟩ := Option.bind_eq_some_iff.mp hs
  obtain ⟨b, hb, rfl⟩ := Option.map_eq_some_iff.mp hs
  cases inbox with
  | none =>
      have hsig := h.signal
      have hval := h.value
      simp only [hw, Worker.due, Option.toList_none, List.length_nil] at hsig
      omega
  | some mail =>
      have hholds : Holds m.net mail := h.buffered
      rcases postalDelivery_of_holds hholds m.numBoxes m.buffer with
        ⟨-, -, buffer', heq⟩ | ⟨-, heq⟩
      · obtain rfl := Option.some.inj (hr.symm.trans heq)
        obtain ⟨-, rfl⟩ := call_eq_some hb
        exact h.hand hw buffer' ((h.boxes mail.mailHdr.to.toInt).step hb)
      · rw [heq] at hr
        cases hr

/-- The worker is back from `Append`. -/
theorem Path.done (h : Path host m wire inbox sock) {box : Int} (hw : m.worker = .putting box)
    (hpc : (m.boxes box).pc none = .idle) :
    Path host { m with worker := .waiting } wire inbox sock := by
  have hsig := h.signal
  rw [hw] at hsig
  refine ⟨h.waits, h.buffered, h.value, hsig, h.boxes, fun c _ => ?_, h.receivers, h.order⟩
  by_cases hc : c = box
  · rw [hc, hpc]
  · exact h.worker c (by rw [hw]; simpa using Ne.symm hc)

/-- **The postal worker**: it takes a signal, moves the mail from the network
buffer to its box, or goes on putting it there. -/
theorem Path.work (h : Path host m wire inbox sock) (hs : m.work = some m') :
    MachineOK host m' wire := by
  cases hw : m.worker with
  | waiting => exact ⟨inbox, sock, h.wait hw hs⟩
  | taken => exact ⟨none, sock, h.deliver hw hs⟩
  | putting box =>
      simp only [Machine.work, hw] at hs
      cases hpc : (m.boxes box).pc none with
      | idle =>
          simp only [hpc] at hs
          obtain rfl := Option.some.inj hs
          exact ⟨inbox, sock, h.done hw hpc⟩
      | _ =>
          simp only [hpc] at hs
          exact ⟨inbox, sock, h.put hw hs⟩

end Steps

/-! ## Runs -/

def System.OK (s : System R) : Prop := ∀ host, MachineOK host (s.machine host) (s.wire host)

section Runs

variable {s s' : System R}

/-- A step of one machine that leaves the wire as it is. -/
theorem System.OK.setMachine (h : s.OK) {host : BitVec 32} {m : Machine R}
    (hm : MachineOK host m (s.wire host)) : (s.setMachine host m).OK := by
  intro host'
  by_cases hh : host' = host
  · subst hh
    have hself : (s.setMachine host' m).machine host' = m := Function.update_self ..
    rw [hself]
    exact hm
  · have hother : (s.setMachine host m).machine host' = s.machine host' :=
      Function.update_of_ne hh ..
    rw [hother]
    exact h host'

theorem System.OK.step {a : Action R} (h : s.OK) (hs : s.step a = some s') : s'.OK := by
  cases a with
  | send host pktHdr mailHdr data junk junk' lost =>
      obtain ⟨⟨dest, d⟩, hsend, rfl⟩ := Option.map_eq_some_iff.mp hs
      cases lost with
      | true => exact h
      | false =>
          obtain ⟨hsize, -⟩ := send_eq_some hsend
          have hmail : Mail.new (filledIn host pktHdr mailHdr) mailHdr data 0
              = some (message host pktHdr mailHdr data hsize) := dif_pos hsize
          obtain ⟨inbox, sock, hpath⟩ := h dest
          have hcarries : Carries dest d (message host pktHdr mailHdr data hsize) :=
            ⟨host, pktHdr, mailHdr, data, junk, junk', hsize, hsend, rfl⟩
          rw [hmail, Option.toList_some]
          intro host'
          by_cases hh : host' = dest
          · subst hh
            simp only [Bool.false_eq_true, if_false, System.setMachine, Function.update_self]
            exact ⟨inbox, _, hpath.arrive hcarries⟩
          · simp only [Bool.false_eq_true, if_false, System.setMachine, Function.update_of_ne hh]
            exact h host'
  | drop host i =>
      obtain rfl := Option.some.inj hs
      obtain ⟨inbox, sock, hpath⟩ := h host
      exact h.setMachine ⟨inbox, _, hpath.drop i⟩
  | poll host junk =>
      obtain ⟨m, hm, rfl⟩ := Option.map_eq_some_iff.mp hs
      obtain ⟨inbox, sock, hpath⟩ := h host
      exact h.setMachine (hpath.poll hm)
  | work host =>
      obtain ⟨m, hm, rfl⟩ := Option.map_eq_some_iff.mp hs
      obtain ⟨inbox, sock, hpath⟩ := h host
      exact h.setMachine (hpath.work hm)
  | receive host r box =>
      obtain ⟨m, hm, rfl⟩ := Option.map_eq_some_iff.mp hs
      obtain ⟨inbox, sock, hpath⟩ := h host
      exact h.setMachine ⟨inbox, sock, hpath.receive hm⟩
  | run host r box =>
      obtain ⟨m, hm, rfl⟩ := Option.map_eq_some_iff.mp hs
      obtain ⟨inbox, sock, hpath⟩ := h host
      exact h.setMachine ⟨inbox, sock, hpath.run hm⟩

end Runs

/-- The mail that `Receive` calls took from a box, in that order. -/
def System.received (s : System R) (host : BitVec 32) (box : Int) : List Mail :=
  ((s.machine host).boxes box).removed.map fun x => x.2.mail

/-- The mail that a thread's calls of `Receive` took from a box. -/
def System.takenBy (s : System R) (host : BitVec 32) (box : Int) (r : R) : List Item :=
  itemsOf (some r) ((s.machine host).boxes box).removed

/-- The mail that a thread's calls of `Receive` have returned. -/
def System.returnedTo (s : System R) (host : BitVec 32) (box : Int) (r : R) : List Item :=
  itemsOf (some r) ((s.machine host).boxes box).returned

/-- **Mail delivery.** What is received from a mailbox is a subsequence of
what was put on the wire for it, in this order, and every thread is returned
what its own calls took. -/
theorem mail_in_wire_order {numBoxes : BitVec 32 → Int} {net : BitVec 32 → NetworkInput}
    {buffer : BitVec 32 → ByteMemory.Memory} {s : System R}
    (h : Reach System.step Any (System.init numBoxes net buffer) s) (host : BitVec 32) (box : Int) :
    (s.received host box).Sublist ((s.wire host).filter (forBox box))
      ∧ ∀ r, s.returnedTo host box r <+: s.takenBy host box r := by
  have hok : s.OK := by
    refine Reach.invariant (I := System.OK) (fun host => ⟨none, [], Path.init ..⟩) ?_ h
    exact fun _ _ _ _ hi _ hs => hi.step hs
  obtain ⟨inbox, sock, hpath⟩ := hok host
  have hinv := hpath.boxes box
  refine ⟨List.Sublist.trans ?_ (hpath.order box), fun r => ?_⟩
  · have hprefix : s.received host box <+: (s.machine host).put box := by
      rw [System.received, Machine.put, hinv.fifo, List.append_assoc, List.map_append, List.map_map]
      exact List.prefix_append _ _
    exact hprefix.sublist.trans (List.sublist_append_left _ _)
  · rw [System.returnedTo, System.takenBy, hinv.returns]
    exact List.prefix_append _ _

/-- Machine 0 sends "h" and "i" to mailbox 2 of machine 1, the first is lost
at the socket, and the second is received. -/
theorem mail_in_wire_order_one_lost :
    ∃ s : System Unit, Reach System.step Any
        (System.init (fun _ => 10) (fun _ => ⟨⟨0, 0, 0⟩, fun _ => 0⟩) fun _ _ => 0) s
      ∧ (s.wire 1).map Mail.data = [[104], [105]] ∧ (s.received 1 2).map Mail.data = [[105]]
      ∧ (s.received 1 2).Sublist ((s.wire 1).filter (forBox 2)) := by
  have hrun : (exec System.step Any
      (System.init (fun _ => 10) (fun _ => ⟨⟨0, 0, 0⟩, fun _ => 0⟩) fun _ _ => 0 : System Unit)
      [.send 0 ⟨1, 0, 0⟩ ⟨2, 0, 1⟩ (fun _ => 104) (fun _ => 0) (fun _ => 0) false,
        .send 0 ⟨1, 0, 0⟩ ⟨2, 0, 1⟩ (fun _ => 105) (fun _ => 0) (fun _ => 0) false,
        .drop 1 0, .poll 1 (fun _ => 0), .work 1, .work 1, .work 1, .work 1, .receive 1 () 2,
        .run 1 () 2, .run 1 () 2]).map
        (fun s => ((s.wire 1).map Mail.data, (s.received 1 2).map Mail.data))
      = some ([[104], [105]], [[105]]) := by
    decide +kernel
  obtain ⟨s, hexec, hsee⟩ := Option.map_eq_some_iff.mp hrun
  have hreach := Reach.of_exec _ hexec
  exact ⟨s, hreach, (Prod.mk.inj hsee).1, (Prod.mk.inj hsee).2, (mail_in_wire_order hreach 1 2).1⟩

end Net

end Nachos
