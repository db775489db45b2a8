import CBoundary.Text.Basic

/-!
# Word characters of all scripts

Beyond ASCII a word character is alphabetic, a mark, a decimal digit, connector
punctuation or a joiner.  The table says in turn how many code points are none and
how many are, as of Unicode 15.1.  It writes each count to the base 26, its last digit as a
capital letter.
-/

namespace CBoundary.Text

/-- The counts that a text of letters writes. -/
def countsOf (read : Nat) : List Char → List Nat
  | [] => []
  | c :: cs =>
    if c.isUpper then (26 * read + (c.toNat - 'A'.toNat)) :: countsOf 0 cs
    else countsOf (26 * read + (c.toNat - 'a'.toNat)) cs

/-- The ranges of a table of how many code points are passed over and taken in turn. -/
def rangesFrom (start : Nat) : List Nat → List (Nat × Nat)
  | passed :: taken :: rest =>
    (start + passed, start + passed + taken - 1) :: rangesFrom (start + passed + taken) rest
  | _ => []

/-- The word characters beyond ASCII. -/
def wordRanges : List (Nat × Nat) := rangesFrom 0 <| countsOf 0 <| String.toList <|
  "gOBKBEBFXBbFBrQEMOFHBBBReNBCCEBBGBBDBBBUBdFBfJBgRBbMCBGbPIbTBBBCBCBBIbBEEbDLFcWEdYBICKBTCBQcHC" ++
  "dXOcCEBCBCbUSbCELFYBGJcWBeZCKBTBICCCWBHBBDECJCCCEIBECBFCMKBBBCDBGECCWBHBCBCBCCBBFECCDDBHEBBHQL" ++
  "DBJBDBWBHBCBFCKBDBDCBPECKJHBDBICCCWBHBCBFCJCCCDHDECBFCKBBQCBGDDBEDCBBBCDCDDDMEFDDBECBGBOKQNBDB" ++
  "XBQCJBDBEHCBDCBCECKQEBIBDBXBKBFCJBDBEHCGCBECKBDMNBDBbZBDBFFEHFCKKGBDBSDYBJBBCHDBEGBBBIGKCCNcGF" ++
  "PBKbNCBBBFBYBBBXCFBBBHBKCEbGBXCGKLBBBBBEKBbKEUBSBbKJBcFcWGdACbMBBFBCbRBmVBECHBBBECbPBECbHBECHB" ++
  "BBECPBcFBECcPCDbGQQdICGDxWCRBbAFcXDLHWJWLUMNBDBCMdGDBECCKbHDBLGdLHbRFcSKbFBMEMKbOCFLbSEbAGKbMb" ++
  "CEcLBbDCLGKNBIbFbXcZDKRJMeMMcEIKDbXCJHbRCDQDBbNFuOCGCbMCGCIBBBBBBBbFCcBBHBBDDBHDECGENFDBHPCbXC" ++
  "TBbCBNBQNbZbHRBEBCKBBDFGBBBBBBEBLCEFFEBRbPbfHcAcrUiVGJMbMBBFBCcEHBPYJHBHBHBHBHBHBHBHBbGbVBsBDZ" ++
  "PBFCFEdICCCDBdMBEFbRBdQRbGbWQtSjtOcMbguFcPbUCkJDbCUbZBKBeLbLJCdZCcMFCBBBFYcCEBTcAMcSKKGYDBBbXC" ++
  "bKMbDDcNOLGbFBcDJOCKGXDcVYDCQCFKGCGCGJHBHBbRBOGeTBCCKGqnSMXEbXmnCoCCeCbMHMFFMBNBFBBBCBCBeEbHnZ" ++
  "ScMCcCbOMEQQQDCYDbGFBfFTKHbAEBBbALdLDGCGCGCDbJMBbABTBCBPCObIeTcRcBfGBfAbDDbXPBbFbGNbEFbRFbECbK" ++
  "EIBFbQgCCKGbKEbKEbOIcAMLBPBHBCBLBPBHBCcPlZJWKIYGBbQBJcRGCBBbSBCDBCXKXJbFcNTBCKWKbAcScEGCcMEBCF" ++
  "IBDBbDCDEBbGbDDbDbJIBbEZcCKWKTNSeGcVcDbZNbZNbOIKmObQBCDCcXbGKBIbHbFWbQVbBXJcTbFQJcIHBNZHKGcBBK" ++
  "EEIbKCBJcREEBNBBbJSBbLGEcKHBBBEBPBKHcHFKGEBICCCWBHBCBFBKCCCDCBGBFHCHDFfJcXFKEEbEcSBBIKgKcCCJXG" ++
  "bIcNDBLKbMcFHKcCbBCPEKGHhDcHdXcWVICBCIBCBbEBCCJMKcSICbUCIBCbBcLIBIcWDBScVkDJBbTBJPKYbECWBOcVHB" ++
  "CBbSDBBCBJIKGGBCBbLBCBGHKlYXJRBbPDFNKdIBdBbjMdYeHRhOdxKdTPbpGQWfyGwLmuBvXHbFBKGdBBKGbECFLcDJEM" ++
  "KJVFTbaMcMeYcXEcFHRcMCBCLCOjcAIbvQbQJnfREBHBCBlFPBbDDCBOEIpGdkUeDFNDJHKDCgyZbUCXuWFDGIICHbEEfS" ++
  "DrBdHBcTBCCBCCCEBMBBBHBcNBECIBHBbCBEBFBBDHBnCCZBZBbFBZBbFBZBbFBZBbFBZBICbYtScDEbYIBOBWFBPbqMbF" ++
  "GGiFHBRCHBCBFFcKbHBeIbTDOCKEBmJbFRcGsCbQbcOHBEBCBPBhPLHbPcYEKbtUEBbBBCBBCBBKBEBBBBGBEBBBBBBDBC" ++
  "BBCBBBBBBBBBBCBBCEBHBEBEBBBKBRFDBFBRyEbAGbAGbAdyKKbnQclfCbGgdUGiOCinQOlbLPxYdqWuWcfYhhZFgfGbon" ++
  "hGjG"

/-- Is a code point inside one of the ranges? -/
def inRanges (ranges : List (Nat × Nat)) (n : Nat) : Bool :=
  ranges.any fun (first, last) => first ≤ n && n ≤ last

/-- Word characters of all scripts. -/
def isWordCharOfAnyScript (c : Char) : Bool :=
  if c.toNat < 0x80 then isWordChar c else inRanges wordRanges c.toNat

theorem isWordCharOfAnyScript_of_lt {c : Char} (h : c.toNat < 0x80) :
    isWordCharOfAnyScript c = isWordChar c := by
  simp [isWordCharOfAnyScript, h]

/-- The word characters of a string. -/
def onlyWordChars (s : String) : String := String.ofList (s.toList.filter isWordCharOfAnyScript)

end CBoundary.Text
