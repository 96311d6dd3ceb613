import Partitura.Fault
import Partitura.Midi.Message

/-!
# The bytes of a MIDI file

A header is followed by one chunk for each track. The ticks before a message are written in groups of
seven bits, and the status byte of a note is left out when it is that of the note before it. Texts
are written in Latin-1, so a character beyond it cannot be.
-/

namespace Partitura.Midi

abbrev Bytes :=
  List UInt8

/-- A number in `count` bytes, the highest first. -/
def bigEndian : Nat → Nat → Bytes
  | 0, _ => []
  | count + 1, n => bigEndian count (n / 256) ++ [UInt8.ofNat (n % 256)]

/-- Groups of seven bits above the last one, each marked as not being the last. -/
def higherGroups (n : Nat) (below : Bytes) : Bytes :=
  if h : n = 0 then below
  else higherGroups (n / 128) (UInt8.ofNat (n % 128 + 128) :: below)
termination_by n
decreasing_by exact Nat.div_lt_self (Nat.pos_of_ne_zero h) (by decide)

/-- A number in groups of seven bits, the highest first. -/
def variableLength (n : Nat) : Bytes :=
  higherGroups (n / 128) [UInt8.ofNat (n % 128)]

/-- The bytes of a text, one for each character. -/
def latinBytes (text : String) : Outcome Bytes :=
  text.toList.mapM fun c =>
    if c.toNat < 256 then .ok (UInt8.ofNat c.toNat) else .error .unencodable

/-- A message about the track: its type, the length of its data and the data. -/
def metaBytes (kind : UInt8) (payload : Bytes) : Bytes :=
  [0xff, kind] ++ variableLength payload.length ++ payload

/-- A note message of a status byte and data after the status byte `running`. -/
def noteBytes (running : Option UInt8) (status : Nat) (payload : Bytes) : Bytes × Option UInt8 :=
  let status := UInt8.ofNat status
  (if running = some status then payload else status :: payload, some status)

/-- The bytes of a message after the status byte `running`, and the status byte that holds after it. -/
def messageBytes (running : Option UInt8) : Message → Outcome (Bytes × Option UInt8)
  | .trackName text => do return (metaBytes 0x03 (← latinBytes text), none)
  | .marker text => do return (metaBytes 0x06 (← latinBytes text), none)
  | .setTempo microseconds => .ok (metaBytes 0x51 (bigEndian 3 microseconds), none)
  | .noteOn channel note velocity =>
    .ok (noteBytes running (0x90 + channel) [UInt8.ofNat note, UInt8.ofNat velocity])
  | .noteOff channel note => .ok (noteBytes running (0x80 + channel) [UInt8.ofNat note, 0])

/-- The bytes of messages with the ticks before each. -/
def messagesBytes : Option UInt8 → Track → Outcome Bytes
  | _, [] => .ok []
  | running, (delta, m) :: rest => do
    let (bytes, running) ← messageBytes running m
    return variableLength delta ++ bytes ++ (← messagesBytes running rest)

/-- A chunk: four letters, the length of its data, and the data. -/
def chunk (tag : String) (payload : Bytes) : Bytes :=
  tag.toList.map (fun c => UInt8.ofNat c.toNat) ++ bigEndian 4 payload.length ++ payload

/-- The message that every track ends with. -/
def endOfTrack : Bytes :=
  0 :: metaBytes 0x2f []

def trackBytes (t : Track) : Outcome Bytes := do
  return chunk "MTrk" ((← messagesBytes none t) ++ endOfTrack)

/-- The header of a file: its format, the number of its tracks and the ticks of a beat. -/
def headerBytes (trackCount : Nat) : Bytes :=
  chunk "MThd"
    (bigEndian 2 simultaneousFormat ++ bigEndian 2 trackCount ++ bigEndian 2 ticksPerBeat)

/-- The bytes of a file. -/
def File.bytes (f : File) : Outcome Bytes := do
  let tracks ← f.tracks.mapM trackBytes
  return headerBytes f.tracks.length ++ tracks.flatten

end Partitura.Midi
