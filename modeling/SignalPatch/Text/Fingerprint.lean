/-!
# Fingerprints of names

Names are keyed by the 32-bit FNV-1a hash of their UTF-8 bytes. Two names may share a fingerprint.
-/

namespace SignalPatch.Text

/-- One round of FNV-1a: mix in a byte, then multiply by the prime. -/
def fnvStep (hash : UInt32) (byte : UInt8) : UInt32 := (hash ^^^ byte.toUInt32) * 16777619

def fnv1a (bytes : List UInt8) : UInt32 := bytes.foldl fnvStep 2166136261

def bytes (s : String) : List UInt8 := s.toList.flatMap String.utf8EncodeChar

def fingerprint (s : String) : UInt32 := fnv1a (bytes s)

end SignalPatch.Text
