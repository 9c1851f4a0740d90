namespace SsaReplay

-- The 256-bit machine words that values take.
abbrev Word := BitVec 256

namespace Word

def text (w : Word) : String := w.toNat.repr

-- Text is laid out from the most significant byte on; bytes beyond the 32nd are
-- dropped and a shorter text is followed by zero bytes.
def ofText (s : String) : Word :=
  let bytes := s.toUTF8
  BitVec.ofNat 256 <|
    (List.range 32).foldl (fun acc i => acc * 256 + (bytes[i]?.getD 0).toNat) 0

end Word

end SsaReplay
