import Nachos.ByteMemory

/-!
# The network and the post office

`NetworkInput` and `NetworkOutput` of `machine/network.cc` and the post
office of `network/post.cc`, as far as one message goes: from `Send` on one
machine to the datagram, from the datagram to the buffer of the receiving
network, and from there to a mailbox.

The numbers are `MaxWireSize` = 64, `sizeof(PacketHeader)` =
`sizeof(MailHeader)` = 12, so `MaxPacketSize` = 52 and `MaxMailSize` = 40. A
word of a header is its 32 bits; `to` and `from` are read as `int`
(`BitVec.toInt`), `length` as `unsigned`. A failed assertion is `none`, and
what `new` leaves in a buffer is an argument (`junk`). `sendBusy` is not
part of the model: nothing ever sets it to true. Whether `Send` loses the
packet on purpose is left to the caller.

`received_iff` says for which messages that pass the assertions of `Send`
all assertions on the receiving machine hold.
-/

namespace Nachos

namespace Net

open ByteMemory

/-! ## Headers -/

/-- The three words of a `PacketHeader` or a `MailHeader`. -/
structure Header where
  «to» : BitVec 32
  «from» : BitVec 32
  length : BitVec 32
deriving DecidableEq, Repr

abbrev PacketHeader := Header

abbrev MailHeader := Header

def wordBytes (w : BitVec 32) : List UInt8 := leBytes 4 w.toNat

def loadWord (m : Memory) (a : Int) : BitVec 32 := BitVec.ofNat 32 (leNat (read m a 4))

namespace Header

/-- The bytes of the object. -/
def bytes (h : Header) : List UInt8 := wordBytes h.to ++ wordBytes h.from ++ wordBytes h.length

/-- The header at an address. -/
def load (m : Memory) (a : Int) : Header := ⟨loadWord m a, loadWord m (a + 4), loadWord m (a + 8)⟩

/-- `length` as a number of bytes. -/
def size (h : Header) : Nat := h.length.toNat

end Header

@[simp] theorem length_wordBytes (w : BitVec 32) : (wordBytes w).length = 4 := length_leBytes 4 _

@[simp] theorem length_bytes (h : Header) : h.bytes.length = 12 := by
  rw [Header.bytes, List.length_append, List.length_append, length_wordBytes, length_wordBytes,
    length_wordBytes]

theorem ofNat_leNat_wordBytes (w : BitVec 32) : BitVec.ofNat 32 (leNat (wordBytes w)) = w := by
  refine BitVec.eq_of_toNat_eq ?_
  have := w.isLt
  rw [wordBytes, leNat_leBytes, BitVec.toNat_ofNat]
  omega

/-- A header is twelve bytes. -/
theorem load_congr {m m' : Memory} {a b : Int}
    (h : ∀ x : Nat, x < 12 → m' (b + x) = m (a + x)) : Header.load m' b = Header.load m a := by
  have hword : ∀ k : Nat, k + 4 ≤ 12 → loadWord m' (b + k) = loadWord m (a + k) := by
    intro k hk
    have hread : read m' (b + k) 4 = read m (a + k) 4 := by
      refine List.map_congr_left fun t ht => ?_
      have := List.mem_range.mp ht
      have := h (k + t) (by omega)
      rw [Int.add_assoc, Int.add_assoc]
      exact this
    rw [loadWord, loadWord, hread]
  have h0 := hword 0 (by decide)
  rw [Int.ofNat_zero, Int.add_zero, Int.add_zero] at h0
  rw [Header.load, Header.load, h0]
  exact congrArg₂ (Header.mk _) (hword 4 (by decide)) (hword 8 (by decide))

/-- A header stored and read back. -/
theorem load_write_bytes (m : Memory) (a : Int) (h : Header) :
    Header.load (write m a h.bytes) a = h := by
  have hword : ∀ k : Nat, k + 4 ≤ 12 →
      read (write m a h.bytes) (a + k) 4 = (h.bytes.drop k).take 4 := fun k hk =>
    read_write (by rw [length_bytes]; omega)
  have hto : read (write m a h.bytes) a 4 = wordBytes h.to := by
    have := hword 0 (by decide)
    rw [Int.ofNat_zero, Int.add_zero] at this
    rw [this, List.drop_zero, Header.bytes, List.append_assoc,
      List.take_left' (length_wordBytes _)]
  have hfrom : read (write m a h.bytes) (a + 4) 4 = wordBytes h.from := by
    refine (hword 4 (by decide)).trans ?_
    rw [Header.bytes, List.append_assoc, List.drop_left' (length_wordBytes _),
      List.take_left' (length_wordBytes _)]
  have hlength : read (write m a h.bytes) (a + 8) 4 = wordBytes h.length := by
    refine (hword 8 (by decide)).trans ?_
    rw [Header.bytes, List.drop_left' (by rw [List.length_append, length_wordBytes,
      length_wordBytes]), List.take_of_length_le (by rw [length_wordBytes])]
  rw [Header.load, loadWord, loadWord, loadWord, hto, hfrom, hlength, ofNat_leNat_wordBytes,
    ofNat_leNat_wordBytes, ofNat_leNat_wordBytes]

/-- A header with data behind it. -/
def packed (junk : Memory) (h : Header) (data : Memory) : Memory :=
  write (write junk 0 h.bytes) 12 (read data 0 h.size)

theorem load_packed (junk : Memory) (h : Header) (data : Memory) :
    Header.load (packed junk h data) 0 = h := by
  have hframe : ∀ x : Nat, x < 12 → packed junk h data (0 + x) = write junk 0 h.bytes (0 + x) :=
    fun x hx => write_read_of_not_mem (by omega)
  rw [load_congr hframe, load_write_bytes]

/-! ## The devices -/

/-- A datagram, `MaxWireSize` bytes. -/
abbrev Datagram := List UInt8

/-- `NetworkOutput::Send`: the datagram it hands to the socket. -/
def networkSend (hostName : BitVec 32) (hdr : PacketHeader) (data junk : Memory) :
    Option Datagram :=
  if 0 < hdr.size ∧ hdr.size ≤ 52 ∧ hdr.from = hostName then some (read (packed junk hdr data) 0 64)
  else none

structure NetworkInput where
  inHdr : PacketHeader
  inbox : Memory

namespace NetworkInput

/-- `NetworkInput::CallBack` with the datagrams that wait at the socket:
whether it took one of them. -/
def callBack (hostName : BitVec 32) (net : NetworkInput) (sock : List Datagram) (junk : Memory) :
    Option (Bool × NetworkInput × List Datagram) :=
  if net.inHdr.length ≠ 0 then some (false, net, sock)
  else
    match sock with
    | [] => some (false, net, sock)
    | d :: rest =>
        let buffer := write junk 0 d
        let inHdr := Header.load buffer 0
        if inHdr.to = hostName ∧ inHdr.size ≤ 52 then
          some (true, ⟨inHdr, write net.inbox 0 (read buffer 12 inHdr.size)⟩, rest)
        else none

/-- `NetworkInput::Receive`: the header, and the caller's buffer. -/
def receive (net : NetworkInput) (buffer : Memory) : PacketHeader × Memory × NetworkInput :=
  (net.inHdr,
    if net.inHdr.length ≠ 0 then write buffer 0 (read net.inbox 0 net.inHdr.size) else buffer,
    { net with inHdr := { net.inHdr with length := 0 } })

end NetworkInput

/-! ## The post office -/

/-- A `Mail` with the bytes of `data` that belong to the message. -/
structure Mail where
  pktHdr : PacketHeader
  mailHdr : MailHeader
  data : List UInt8
  size_le : mailHdr.size ≤ 40
deriving DecidableEq

/-- `Mail::Mail`, for a message that starts at `a`. -/
def Mail.new (pktH : PacketHeader) (mailH : MailHeader) (msgData : Memory) (a : Int) :
    Option Mail :=
  if h : mailH.size ≤ 40 then some ⟨pktH, mailH, read msgData a mailH.size, h⟩ else none

/-- The packet header as `PostOfficeOutput::Send` fills it in. -/
def filledIn (hostName : BitVec 32) (pktHdr : PacketHeader) (mailHdr : MailHeader) : PacketHeader :=
  { pktHdr with «from» := hostName, length := mailHdr.length + 12 }

/-- `PostOfficeOutput::Send`: the machine it sends to, and the datagram. -/
def send (hostName : BitVec 32) (pktHdr : PacketHeader) (mailHdr : MailHeader)
    (data junk junk' : Memory) : Option (BitVec 32 × Datagram) :=
  if mailHdr.size ≤ 40 ∧ 0 ≤ mailHdr.to.toInt then
    (networkSend hostName (filledIn hostName pktHdr mailHdr) (packed junk mailHdr data) junk').map
      fun d => (pktHdr.to, d)
  else none

/-- The body of the loop of `PostOfficeInput::PostalDelivery` up to
`MailBox::Put`: the box and the mail for it. -/
def postalDelivery (numBoxes : Int) (net : NetworkInput) (buffer : Memory) :
    Option (Int × Mail × NetworkInput × Memory) :=
  let r := net.receive buffer
  let mailHdr := Header.load r.2.1 0
  if 0 ≤ mailHdr.to.toInt ∧ mailHdr.to.toInt < numBoxes ∧ mailHdr.size ≤ 40 then
    (Mail.new r.1 mailHdr r.2.1 12).map fun mail => (mailHdr.to.toInt, mail, r.2.2, r.2.1)
  else none

/-- `PostOfficeInput::Receive` of a mail from a box. -/
def receive (numBoxes box : Int) (mail : Mail) : Option Mail :=
  if 0 ≤ box ∧ box < numBoxes then if mail.mailHdr.size ≤ 40 then some mail else none else none

/-! ## One message -/

section Message

variable {hostName : BitVec 32} {pktHdr : PacketHeader} {mailHdr : MailHeader}
  {data junk junk' : Memory} {dest : BitVec 32} {d : Datagram}

theorem size_filledIn (h : mailHdr.size ≤ 40) :
    (filledIn hostName pktHdr mailHdr).size = mailHdr.size + 12 := by
  have htwelve : (12 : BitVec 32).toNat = 12 := rfl
  simp only [Header.size] at h
  simp only [filledIn, Header.size, BitVec.toNat_add, htwelve]
  omega

theorem send_eq_some (h : send hostName pktHdr mailHdr data junk junk' = some (dest, d)) :
    mailHdr.size ≤ 40 ∧ 0 ≤ mailHdr.to.toInt ∧ dest = pktHdr.to
      ∧ d = read (packed junk' (filledIn hostName pktHdr mailHdr) (packed junk mailHdr data)) 0
          64 := by
  rw [send] at h
  split at h
  next hok =>
      obtain ⟨d', hd', hpair⟩ := Option.map_eq_some_iff.mp h
      obtain ⟨rfl, rfl⟩ := Prod.mk.inj hpair
      rw [networkSend] at hd'
      split at hd'
      next => exact ⟨hok.1, hok.2, rfl, (Option.some.inj hd').symm⟩
      next => cases hd'
  next => cases h

/-- `Send` fails only by its two assertions on the mail header. -/
theorem send_isSome (hsize : mailHdr.size ≤ 40) (hto : 0 ≤ mailHdr.to.toInt) :
    (send hostName pktHdr mailHdr data junk junk').isSome := by
  have hlen : (filledIn hostName pktHdr mailHdr).size = mailHdr.size + 12 := size_filledIn hsize
  rw [send, if_pos ⟨hsize, hto⟩, networkSend, if_pos ⟨by omega, by omega, rfl⟩]
  rfl

/-- The mail that a message should become. -/
def message (hostName : BitVec 32) (pktHdr : PacketHeader) (mailHdr : MailHeader) (data : Memory)
    (h : mailHdr.size ≤ 40) : Mail :=
  ⟨filledIn hostName pktHdr mailHdr, mailHdr, read data 0 mailHdr.size, h⟩

/-- The network buffer holds this mail. -/
structure Holds (net : NetworkInput) (mail : Mail) : Prop where
  header : net.inHdr = mail.pktHdr
  size : net.inHdr.size = mail.mailHdr.size + 12
  mailHeader : Header.load net.inbox 0 = mail.mailHdr
  data : read net.inbox 12 mail.mailHdr.size = mail.data

theorem Holds.length_ne_zero {net : NetworkInput} {mail : Mail} (h : Holds net mail) :
    net.inHdr.length ≠ 0 := by
  intro h0
  have := h.size
  rw [Header.size, h0] at this
  simp at this

/-- **`CallBack`** takes the message over, whatever else is in the buffers. -/
theorem callBack_of_send (h : send hostName pktHdr mailHdr data junk junk' = some (dest, d))
    {net : NetworkInput} (hempty : net.inHdr.length = 0) (sock : List Datagram) (junk'' : Memory) :
    ∃ net' hsize, net.callBack dest (d :: sock) junk'' = some (true, net', sock)
      ∧ Holds net' (message hostName pktHdr mailHdr data hsize) := by
  obtain ⟨hsize, -, rfl, rfl⟩ := send_eq_some h
  have hlen : (filledIn hostName pktHdr mailHdr).size = mailHdr.size + 12 := size_filledIn hsize
  generalize hp : filledIn hostName pktHdr mailHdr = p at hlen
  -- the buffer of the receiver is that of the sender, byte by byte
  have hbuffer : ∀ x : Int, 0 ≤ x → x < 64 →
      write junk'' 0 (read (packed junk' p (packed junk mailHdr data)) 0 64) x
        = packed junk' p (packed junk mailHdr data) x := by
    intro x h0 hx
    rw [write_read_of_mem h0 (by omega)]
    exact congrArg _ (by omega)
  have hload : Header.load (write junk'' 0 (read (packed junk' p (packed junk mailHdr data))
      0 64)) 0 = p := by
    rw [load_congr fun x hx => hbuffer _ (by omega) (by omega)]
    exact load_packed junk' p _
  have hpayload : ∀ x : Int, 0 ≤ x → x < p.size →
      packed junk' p (packed junk mailHdr data) (12 + x) = packed junk mailHdr data x := by
    intro x h0 hx
    rw [packed, write_read_of_mem (by omega) (by omega)]
    exact congrArg _ (by omega)
  have hinbox : ∀ x : Int, 0 ≤ x → x < p.size →
      write net.inbox 0 (read (write junk'' 0
        (read (packed junk' p (packed junk mailHdr data)) 0 64)) 12 p.size) x
        = packed junk mailHdr data x := by
    intro x h0 hx
    rw [write_read_of_mem h0 (by omega), hbuffer _ (by omega) (by omega), Int.sub_zero,
      hpayload x h0 hx]
  have hto : p.to = pktHdr.to := by rw [← hp]; rfl
  refine ⟨⟨p, write net.inbox 0 (read (write junk'' 0
    (read (packed junk' p (packed junk mailHdr data)) 0 64)) 12 p.size)⟩, hsize, ?_, hp.symm, hlen,
    ?_, ?_⟩
  · rw [NetworkInput.callBack, if_neg (not_not.mpr hempty)]
    simp only [hload]
    exact if_pos ⟨hto, by omega⟩
  · rw [load_congr fun x hx => hinbox _ (by omega) (by omega)]
    exact load_packed junk mailHdr data
  · simp only [message]
    refine List.map_congr_left fun t ht => ?_
    have := List.mem_range.mp ht
    rw [hinbox _ (by omega) (by omega), packed, write_read_of_mem (by omega) (by omega)]
    exact congrArg data (by omega)

/-- **`PostalDelivery`** puts the mail into its box, if there is such a box. -/
theorem postalDelivery_of_holds {net : NetworkInput} {mail : Mail} (h : Holds net mail)
    (numBoxes : Int) (buffer : Memory) :
    (0 ≤ mail.mailHdr.to.toInt ∧ mail.mailHdr.to.toInt < numBoxes
        ∧ ∃ buffer', postalDelivery numBoxes net buffer
          = some (mail.mailHdr.to.toInt, mail,
              { net with inHdr := { net.inHdr with length := 0 } }, buffer'))
      ∨ (¬(0 ≤ mail.mailHdr.to.toInt ∧ mail.mailHdr.to.toInt < numBoxes)
        ∧ postalDelivery numBoxes net buffer = none) := by
  have hsize := h.size
  have hcopy : ∀ x : Int, 0 ≤ x → x < net.inHdr.size →
      (net.receive buffer).2.1 x = net.inbox x := by
    intro x h0 hx
    simp only [NetworkInput.receive]
    rw [if_pos h.length_ne_zero, write_read_of_mem h0 (by omega)]
    exact congrArg net.inbox (by omega)
  have hload : Header.load (net.receive buffer).2.1 0 = mail.mailHdr := by
    rw [load_congr fun x hx => hcopy _ (by omega) (by omega), h.mailHeader]
  have hdata : read (net.receive buffer).2.1 12 mail.mailHdr.size = mail.data := by
    rw [← h.data]
    exact read_congr fun x h0 hx => hcopy x (by omega) (by omega)
  have hmail : Mail.new (net.receive buffer).1 mail.mailHdr (net.receive buffer).2.1 12
      = some mail := by
    have hheader : (net.receive buffer).1 = mail.pktHdr := h.header
    rw [Mail.new, dif_pos mail.size_le]
    simp only [hdata, hheader]
  rw [postalDelivery]
  simp only [hload]
  by_cases hbox : 0 ≤ mail.mailHdr.to.toInt ∧ mail.mailHdr.to.toInt < numBoxes
  · refine Or.inl ⟨hbox.1, hbox.2, (net.receive buffer).2.1, ?_⟩
    rw [if_pos ⟨hbox.1, hbox.2, mail.size_le⟩, hmail]
    rfl
  · exact Or.inr ⟨hbox, if_neg fun hc => hbox ⟨hc.1, hc.2.1⟩⟩

end Message

/-- All that happens to a datagram on the receiving machine: `CallBack`,
`PostalDelivery`, and `Receive` from the box the mail was put into. -/
def received (numBoxes : Int) (hostName : BitVec 32) (net : NetworkInput) (d : Datagram)
    (sock : List Datagram) (junk buffer : Memory) : Option Mail :=
  (net.callBack hostName (d :: sock) junk).bind fun r =>
    (postalDelivery numBoxes r.2.1 buffer).bind fun r => receive numBoxes r.1 r.2.1

/-- **The assertions of the receiver.** A message that passes the assertions
of `Send` passes all assertions on the machine it is sent to, in every state
in which that machine takes it off the socket, exactly when the machine has a
mailbox of that number. -/
theorem received_iff {hostName dest : BitVec 32} {pktHdr : PacketHeader} {mailHdr : MailHeader}
    {data junk junk' : Memory} {d : Datagram} {net : NetworkInput}
    (h : send hostName pktHdr mailHdr data junk junk' = some (dest, d))
    (hempty : net.inHdr.length = 0) (numBoxes : Int) (sock : List Datagram)
    (junk'' buffer : Memory) :
    (received numBoxes dest net d sock junk'' buffer).isSome ↔ mailHdr.to.toInt < numBoxes := by
  obtain ⟨net', hsize, hcall, hholds⟩ := callBack_of_send h hempty sock junk''
  rw [received, hcall, Option.bind_some]
  rcases postalDelivery_of_holds hholds numBoxes buffer with
    ⟨h0, hlt, buffer', heq⟩ | ⟨hbox, heq⟩
  · have hreceive : receive numBoxes mailHdr.to.toInt (message hostName pktHdr mailHdr data hsize)
        = some (message hostName pktHdr mailHdr data hsize) := by
      rw [receive, if_pos ⟨h0, hlt⟩]
      exact if_pos hsize
    rw [heq, Option.bind_some]
    exact ⟨fun _ => hlt, fun _ => Option.isSome_of_eq_some hreceive⟩
  · rw [heq, Option.bind_none]
    refine ⟨fun hsome => absurd hsome (by simp), fun hlt => absurd ⟨?_, hlt⟩ hbox⟩
    exact (send_eq_some h).2.1

/-- A message of three bytes from machine 0 to mailbox `box` of machine 1. -/
def greeting (box : BitVec 32) : Option (BitVec 32 × Datagram) :=
  send 0 ⟨1, 0, 0⟩ ⟨box, 0, 3⟩ (fun _ => 104) (fun _ => 0) (fun _ => 0)

/-- It is received where there are ten mailboxes, as in the kernel, and the
number is 9. -/
theorem received_last_box :
    ∃ d, greeting 9 = some (1, d)
      ∧ (received 10 1 ⟨⟨1, 0, 0⟩, fun _ => 0⟩ d [] (fun _ => 0) fun _ => 0).isSome := by
  have hsend : (greeting 9).map Prod.fst = some 1 := by decide
  obtain ⟨⟨dest, d⟩, hd, rfl⟩ := Option.map_eq_some_iff.mp hsend
  exact ⟨d, hd, (received_iff hd rfl 10 [] _ _).mpr (by decide)⟩

/-- With the number 10 `Send` passes and the receiving machine stops. -/
theorem received_beyond_last_box :
    ∃ d, greeting 10 = some (1, d)
      ∧ received 10 1 ⟨⟨1, 0, 0⟩, fun _ => 0⟩ d [] (fun _ => 0) (fun _ => 0) = none := by
  have hsend : (greeting 10).bind (fun r =>
      if r.1 = 1 then some ((received 10 1 ⟨⟨1, 0, 0⟩, fun _ => 0⟩ r.2 [] (fun _ => 0)
        fun _ => 0).isNone) else none) = some true := by
    decide +kernel
  obtain ⟨⟨dest, d⟩, hd, hsee⟩ := Option.bind_eq_some_iff.mp hsend
  split at hsee
  next hdest =>
      refine ⟨d, by rw [hd, ← hdest], Option.isNone_iff_eq_none.mp (Option.some.inj hsee)⟩
  next => cases hsee

end Net

end Nachos
