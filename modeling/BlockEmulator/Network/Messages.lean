import BlockEmulator.Lib.Lines
import Mathlib.Data.List.Nodup

set_option autoImplicit false

/-! # Messages on a connection

`MergeMessage` puts the type of a message into a header of 30 bytes, `TcpDial` writes the bytes and a
newline, and `handleClientRequest` reads lines and takes them apart again with `SplitMessage`. Three
packages share this format without a type for it. What it takes for a connection to hand over what was
written is collected in `WireMessage`: a type that fits the header and has no zero byte, which would be
taken for padding, and no newline in either part. Every type the source declares is of this kind, and no
two of them share a header (`MessageType.bytes_injective`). -/

namespace BlockEmulator

/-- `'\n'`. -/
def newline : UInt8 := 10

def prefixMSGtypeLen : ℕ := 30

/-- `MergeMessage`; `none` is an index out of range in the header. -/
def mergeMessage (msgType content : List UInt8) : Option (List UInt8) :=
  if msgType.length ≤ prefixMSGtypeLen then
    some (msgType ++ List.replicate (prefixMSGtypeLen - msgType.length) 0 ++ content)
  else none

/-- `SplitMessage`; `none` is a slice out of range. -/
def splitMessage (message : List UInt8) : Option (List UInt8 × List UInt8) :=
  if prefixMSGtypeLen ≤ message.length then
    some ((message.take prefixMSGtypeLen).filter fun v => v ≠ 0, message.drop prefixMSGtypeLen)
  else none

/-- What a sequence of `TcpDial`s of such messages writes to one connection. -/
def tcpStream : List (List UInt8 × List UInt8) → Option (List UInt8)
  | [] => some []
  | m :: ms =>
    (mergeMessage m.1 m.2).bind fun context =>
      (tcpStream ms).map fun stream => context ++ [newline] ++ stream

/-- The messages of some lines; `none` is a panic on one of them. -/
def splitMessages : List (List UInt8) → Option (List (List UInt8 × List UInt8))
  | [] => some []
  | clientRequest :: rest =>
    (splitMessage clientRequest).bind fun m => (splitMessages rest).map fun ms => m :: ms

/-- `handleClientRequest` on all that a connection brings until it is closed: the types and contents
    handed to `handleMessage`. -/
def handleClientRequest (stream : List UInt8) : Option (List (List UInt8 × List UInt8)) :=
  splitMessages (lines newline stream)

/-! ## The types -/

/-- The constants of type `MessageType`. -/
inductive MessageType where
  | cPrePrepare
  | cPrepare
  | cCommit
  | cRequestOldrequest
  | cSendOldrequest
  | cStop
  | cRelay
  | cRelayWithProof
  | cInject
  | cBlockInfo
  | cSeqIDinfo
  | viewChangePropose
  | newChange
  | accountStateAndTX
  | cPartitionMsg
  | cPartitionReady
  | brokerRawTx
  | brokerConfirm1
  | brokerConfirm2
  | brokerType1
  | brokerType2
  | cInjectBroker
  | cBrokerTxMap
  | cAccountTransferMsgBroker
  | cInner2CrossTx
deriving DecidableEq

namespace MessageType

def text : MessageType → String
  | cPrePrepare => "preprepare"
  | cPrepare => "prepare"
  | cCommit => "commit"
  | cRequestOldrequest => "requestOldrequest"
  | cSendOldrequest => "sendOldrequest"
  | cStop => "stop"
  | cRelay => "relay"
  | cRelayWithProof => "CRelay&Proof"
  | cInject => "inject"
  | cBlockInfo => "BlockInfo"
  | cSeqIDinfo => "SequenceID"
  | viewChangePropose => "ViewChangePropose"
  | newChange => "NewChange"
  | accountStateAndTX => "AccountState&txs"
  | cPartitionMsg => "PartitionModifiedMap"
  | cPartitionReady => "ready for partition"
  | brokerRawTx => "brokerRawTx"
  | brokerConfirm1 => "brokerConfirm1"
  | brokerConfirm2 => "brokerConfirm2"
  | brokerType1 => "brokerType1"
  | brokerType2 => "brokerType2"
  | cInjectBroker => "InjectTx_Broker"
  | cBrokerTxMap => "BrokerTxMap"
  | cAccountTransferMsgBroker => "BrokerAS_transfer"
  | cInner2CrossTx => "innerShardTx_be_crossShard"

/-- The text is ASCII. -/
def bytes (t : MessageType) : List UInt8 := t.text.toList.map fun c => c.toNat.toUInt8

end MessageType

/-! ## The round trip -/

/-- A message that survives the format. -/
structure WireMessage where
  msgType : List UInt8
  content : List UInt8
  short : msgType.length ≤ prefixMSGtypeLen
  noZero : 0 ∉ msgType
  noNewline : newline ∉ msgType
  oneLine : newline ∉ content

namespace WireMessage

variable (m : WireMessage)

/-- The type, padded with zeros. -/
def header : List UInt8 := m.msgType ++ List.replicate (prefixMSGtypeLen - m.msgType.length) 0

theorem mergeMessage_eq : mergeMessage m.msgType m.content = some (m.header ++ m.content) :=
  if_pos m.short

theorem length_header : m.header.length = prefixMSGtypeLen := by
  have hshort := m.short
  rw [header, List.length_append, List.length_replicate]
  omega

theorem filter_header : (m.header.filter fun v => v ≠ 0) = m.msgType := by
  have htype : (m.msgType.filter fun v => v ≠ 0) = m.msgType :=
    List.filter_eq_self.2 fun v hv => by simpa using fun h0 : v = 0 => m.noZero (h0 ▸ hv)
  rw [header, List.filter_append, htype, List.filter_replicate]
  simp

/-- A message is one line. -/
theorem newline_notMem : newline ∉ m.header ++ m.content := by
  have hzero : newline ≠ 0 := by decide
  simp [header, m.noNewline, m.oneLine, hzero]

theorem splitMessage_eq :
    splitMessage (m.header ++ m.content ++ [newline]) = some (m.msgType, m.content ++ [newline]) := by
  have hlen := m.length_header
  rw [splitMessage, if_pos (by simp [hlen]), List.append_assoc, List.take_left' hlen,
    List.drop_left' hlen, filter_header]

end WireMessage

theorem tcpStream_eq (ms : List WireMessage) :
    tcpStream (ms.map fun m => (m.msgType, m.content)) =
      some (written newline (ms.map fun m => m.header ++ m.content)) := by
  induction ms with
  | nil => rfl
  | cons m ms ih =>
    rw [List.map_cons, tcpStream, m.mergeMessage_eq, Option.bind_some, ih]
    rfl

theorem splitMessages_eq (ms : List WireMessage) :
    splitMessages (ms.map fun m => m.header ++ m.content ++ [newline]) =
      some (ms.map fun m => (m.msgType, m.content ++ [newline])) := by
  induction ms with
  | nil => rfl
  | cons m ms ih =>
    rw [List.map_cons, splitMessages, m.splitMessage_eq, Option.bind_some, ih]
    rfl

theorem handleClientRequest_written (ms : List WireMessage) :
    handleClientRequest (written newline (ms.map fun m => m.header ++ m.content)) =
      some (ms.map fun m => (m.msgType, m.content ++ [newline])) := by
  have hframes : ∀ frame ∈ ms.map fun m => m.header ++ m.content, newline ∉ frame := by
    intro frame hframe
    obtain ⟨m, -, rfl⟩ := List.mem_map.1 hframe
    exact m.newline_notMem
  have hlines := lines_written hframes (List.not_mem_nil (a := newline))
  rw [List.append_nil, List.map_map] at hlines
  rw [handleClientRequest, hlines]
  exact splitMessages_eq ms

/-- **Messages arrive as they were sent**: no write and no read goes out of range, and the receiver is
    handed the same types and contents in the same order, each content with its newline. -/
theorem framing_round_trip (ms : List WireMessage) :
    ∃ stream, tcpStream (ms.map fun m => (m.msgType, m.content)) = some stream ∧
      handleClientRequest stream = some (ms.map fun m => (m.msgType, m.content ++ [newline])) :=
  ⟨_, tcpStream_eq ms, handleClientRequest_written ms⟩

namespace MessageType

def all : List MessageType :=
  [cPrePrepare, cPrepare, cCommit, cRequestOldrequest, cSendOldrequest, cStop, cRelay,
    cRelayWithProof, cInject, cBlockInfo, cSeqIDinfo, viewChangePropose, newChange,
    accountStateAndTX, cPartitionMsg, cPartitionReady, brokerRawTx, brokerConfirm1, brokerConfirm2,
    brokerType1, brokerType2, cInjectBroker, cBrokerTxMap, cAccountTransferMsgBroker, cInner2CrossTx]

theorem mem_all (t : MessageType) : t ∈ all := by
  cases t <;> decide

theorem fits_header (t : MessageType) :
    t.bytes.length ≤ prefixMSGtypeLen ∧ 0 ∉ t.bytes ∧ newline ∉ t.bytes := by
  have hall : ∀ t ∈ all, t.bytes.length ≤ prefixMSGtypeLen ∧ 0 ∉ t.bytes ∧ newline ∉ t.bytes := by
    decide +kernel
  exact hall t (mem_all t)

/-- Every declared type makes a message that survives. -/
def wire (t : MessageType) {content : List UInt8} (h : newline ∉ content) : WireMessage where
  msgType := t.bytes
  content := content
  short := t.fits_header.1
  noZero := t.fits_header.2.1
  noNewline := t.fits_header.2.2
  oneLine := h

/-- The receiver can tell the declared types apart. -/
theorem bytes_injective : Function.Injective bytes := by
  have hnodup : (all.map bytes).Nodup := by decide +kernel
  exact fun t t' h => List.inj_on_of_nodup_map hnodup (mem_all t) (mem_all t') h

end MessageType

end BlockEmulator
