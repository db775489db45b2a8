import CBoundary.Text.WordChar

/-!
# Quoted texts

A display shows a text between quotes: single ones, unless the text holds a single quote and no
double one.  Backslashes, the quote in use and characters that are not printable are escaped.
-/

namespace CBoundary.Text

/-! ## Printable characters -/

/-- The characters beyond ASCII that are not printable. -/
def unprintableRanges : List (Nat × Nat) := rangesFrom 0 <| countsOf 0 <| String.toList <|
  "eYbHMBbbMCGEHBBBUBpHBbMCbYCDBcDIbBEGRWBhKBbWCcHCdXOcHCbXCPBbCCBBLFbFJcWBgFBICCCWBHBBDECJCCCEIB" ++
  "ECBFCZCDBGECCWBHBCBCBCCBBFECCDDBHEBBHRKDBJBDBWBHBCBFCKBDBDCBPECMHHBDBICCCWBHBCBFCJCCCDHDECBFCS" ++
  "KCBGDDBEDCBBBCDCDDDMEFDDBECBGBOVFNBDBXBQCJBDBEHCBDCBCECKHWBDBXBKBFCJBDBEHCGCBECKBCNNBDBbZBDBGE" ++
  "QCbABDBSDYBJBBCHDBEGBBBIGKCDMcGEbDbLCBBBFBYBBBXCFBBBGCKCEbGcUBbKEbNBbKBPBNbLhQBBFBCoNBECHBBBEC" ++
  "bPBECbHBECHBBBECPBcFBECcPCbGDbAGdICGCyQBbCDdLHWJYJUMNBDBCMdQCKGKGOBLGdLHbRFcSKbFBMEMEBDbQCFLbS" ++
  "EbAGLDcKCcNBbDCLGKGOCbFbXcZDbVBeMIcIDPDcIHbRCLIbRFuOCGCbMCGCIBBBBBBBbFCcBBPBOCGBTCDBJRYIbVRCCb" ++
  "BBNDbHPbHPfKEzNZLVcrSCbGBnLFbTBBFBCcEHCOYJHBHBHBHBHBHBHBHBeWbIbABdLMiGbAMFcLBdICdZFbRBdQBdGMbV" ++
  "BbriRDcDJnKUhCIhVFCBBBFYcHDKGcEIcSIMGeMLbEDdABLEbHBcDJOCKCdZYbCKGCGCGJHBHBcIEeWCKGqnSMXEbXEdaU" ++
  "jmEoCCeCbMHMFFbABFBBBCBCBeVQrDCcCHBbGbQGbZBTBEEFBfFEhIDGCGCGCDDHBHNCCMBbABTBCBPCObIeTFDEbTDdKB" ++
  "NDBbVbUfAbDDbXPbCEbKJbEFbRFbEBbLEObQgCCKGbKEbKEbOIcALMBPBHBCBLBPBHBCcPlZJWKIYGBbQBJcRGCBBbSBCD" ++
  "BCXBcUIJbWTBCFbHDbBFBcMcEEUCbYBCFIBDBbDCDEKHJHcMbGbNEMJcCDbDCbBFbAHEMHdCcVcDbZNbZHbUIKlIbFBbQB" ++
  "DCCdAbOIbQWbAbMbCUXJdAEbKJcKBFNZHKGcBBSIbNJdSBULSBbScNHBBBEBPBLGcHFKGEBICCCWBHBCBFBKCCCDCBGBFH" ++
  "CHDFfJdOBFbEcUIKgKcCCbMbIcRLKGNTcGGKcCbBCPEXhDcIdWdFMICBCIBCBbEBCCMJKcSICbUCLbBcUIdFNcVkDJBbTB" ++
  "OKbDDbGCWBOcVHBCBbSDBBCBJIKGGBCBbLBCBGHKlYZhBBPbYNbjNdYeHBFLhOdxKdVNbpFfzTwLmuBvXHbFBKEdDBKGbE" ++
  "CGKcSKKBHBVFTbaMdNdXcXEcFHRcMFLCOjcAIbvQbQJnfREBHBCBlFbTDREIpGdkUeDFNDJHKCEgyYbUCXJeMcIjMKbNCc" ++
  "WIeIVcSfYUMdJJZfFdHBcTBCCBCCCEBMBBBHBcNBECIBHBbCBEBFBBDHBnCClGCbbAPFBPbqMbFiRHBRCHBCBFiFbTDOCK" ++
  "ECmIbFRcGFBbwAHBEBCBPBhPCQbPcYEKECbeFcQcYcJhMEBbBBCBBCBBKBEBBBBGBEBBBBBBDBCBBCBBBBBBBBBBCBBCEB" ++
  "HBEBEBBBKBRFDBFBRcACkKbSEdWMPCPBPBbLKgScEbDNbSEJHCOGfYblWFQDNDeMMdLHMEBPMEcEIKGbOIbECCdAnCMOCF" ++
  "DFDHJbDDLFGKKGIIHJfRBcDbLKbnQclfCbGgdTHiOCinQOlbLepJuWcfYhhZbotmRjGlecU"

/-- May the character be displayed as it is? -/
def isPrintable (c : Char) : Bool :=
  if c.toNat < 0x80 then 0x20 ≤ c.toNat && c.toNat < 0x7f
  else !inRanges unprintableRanges c.toNat

/-! ## Quotes -/

/-- Hexadecimal digits, filled up to a width. -/
def hexDigits (width n : Nat) : List Char :=
  let ds := Nat.toDigits 16 n
  List.replicate (width - ds.length) '0' ++ ds

/-- A character inside a quoted text. -/
def quotedChar (mark c : Char) : List Char :=
  if c = '\\' ∨ c = mark then ['\\', c]
  else if c = '\n' then ['\\', 'n']
  else if c = '\t' then ['\\', 't']
  else if c = '\r' then ['\\', 'r']
  else if isPrintable c then [c]
  else if c.toNat < 0x100 then '\\' :: 'x' :: hexDigits 2 c.toNat
  else if c.toNat < 0x10000 then '\\' :: 'u' :: hexDigits 4 c.toNat
  else '\\' :: 'U' :: hexDigits 8 c.toNat

/-- The quote that a text asks for. -/
def quoteMark (s : List Char) : Char :=
  if s.contains '\'' && !s.contains '\"' then '\"' else '\''

/-- A text between quotes. -/
def quote (s : String) : String :=
  let mark := quoteMark s.toList
  String.ofList (mark :: s.toList.flatMap (quotedChar mark) ++ [mark])

/-- A list of texts between brackets, each quoted. -/
def quoteList (l : List String) : String := "[" ++ ", ".intercalate (l.map quote) ++ "]"

end CBoundary.Text
