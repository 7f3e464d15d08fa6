import TypedLisp.Text.Ranges

/-!
# Upper and lower case

Full case mappings of the Unicode standard: a character maps to one or more characters, and a
capital sigma at the end of a word has a lower case of its own. One-to-one mappings come in runs
of neighbouring characters, or of every second one, that share a distance.
-/

namespace TypedLisp.Text

/-- The characters from `first` to `last`, `step` apart, map `shift` code points away. -/
structure CaseRun where
  first : Nat
  last : Nat
  step : Nat
  shift : Int

/-- Where the runs send a code point, if any of them holds it. -/
def CaseRun.lookup? (runs : List CaseRun) (n : Nat) : Option Nat :=
  (runs.find? fun r => r.first ≤ n && n ≤ r.last && (n - r.first) % r.step == 0).map fun r =>
    (Int.ofNat n + r.shift).toNat

/-- The run that leads back. -/
def CaseRun.back (r : CaseRun) : CaseRun :=
  ⟨(r.first + r.shift).toNat, (r.last + r.shift).toNat, r.step, -r.shift⟩

/-- Small letters that come right after their capitals: every second character of these ranges. -/
def pairedRanges : Ranges := .ofLengths 0 [
  257, 47, 3, 5, 2, 15, 2, 45, 2, 5, 4, 3, 2, 1, 3, 1, 5, 1, 6, 1, 7, 5, 2, 1, 4, 1, 2, 1, 3, 3, 2,
  1, 3, 1, 16, 15, 2, 17, 5, 1, 3, 39, 3, 17, 8, 1, 5, 1, 4, 9, 289, 3, 3, 1, 97, 23, 8, 1, 2, 1,
  101, 33, 9, 53, 2, 13, 2, 95, 5978, 1, 374, 149, 11, 95, 644, 1, 2780, 1, 6, 5, 6, 1, 2, 1, 10,
  99, 8, 3, 4, 1, 31053, 45, 19, 27, 135, 13, 3, 61, 10, 3, 2, 9, 4, 1, 4, 3, 3, 19, 11, 15, 4, 3,
  2, 15, 26, 1]

/-- Neighbouring small letters, and how far away their capitals are. -/
def neighbourShifts : List (Nat × Nat × Int) := [
  (0x61, 0x7a, -32), (0xe0, 0xf6, -32), (0xf8, 0xfe, -32), (0x23f, 0x240, 10815),
  (0x256, 0x257, -205), (0x28a, 0x28b, -217), (0x37b, 0x37d, 130), (0x3ad, 0x3af, -37),
  (0x3b1, 0x3c1, -32), (0x3c3, 0x3cb, -32), (0x3cd, 0x3ce, -63), (0x430, 0x44f, -32),
  (0x450, 0x45f, -80), (0x561, 0x586, -48), (0x10d0, 0x10fa, 3008), (0x10fd, 0x10ff, 3008),
  (0x13f8, 0x13fd, -8), (0x1f00, 0x1f07, 8), (0x1f10, 0x1f15, 8), (0x1f20, 0x1f27, 8),
  (0x1f30, 0x1f37, 8), (0x1f40, 0x1f45, 8), (0x1f60, 0x1f67, 8), (0x1f70, 0x1f71, 74),
  (0x1f72, 0x1f75, 86), (0x1f76, 0x1f77, 100), (0x1f78, 0x1f79, 128), (0x1f7a, 0x1f7b, 112),
  (0x1f7c, 0x1f7d, 126), (0x1fb0, 0x1fb1, 8), (0x1fd0, 0x1fd1, 8), (0x1fe0, 0x1fe1, 8),
  (0x2170, 0x217f, -16), (0x24d0, 0x24e9, -26), (0x2c30, 0x2c5f, -48), (0x2d00, 0x2d25, -7264),
  (0xab70, 0xabbf, -38864), (0xff41, 0xff5a, -32), (0x10428, 0x1044f, -40), (0x104d8, 0x104fb, -40),
  (0x10597, 0x105a1, -39), (0x105a3, 0x105b1, -39), (0x105b3, 0x105b9, -39),
  (0x105bb, 0x105bc, -39), (0x10cc0, 0x10cf2, -64), (0x10d70, 0x10d85, -32),
  (0x118c0, 0x118df, -32), (0x16e60, 0x16e7f, -32), (0x16ebb, 0x16ed3, -27),
  (0x1e922, 0x1e943, -34)]

/-- Small letters on their own, and how far away their capitals are. -/
def singleShifts : List (Nat × Int) := [
  (0xff, 121), (0x180, 195), (0x195, 97), (0x19a, 163), (0x19b, 42561), (0x19e, 130), (0x1bf, 56),
  (0x1c6, -2), (0x1c9, -2), (0x1cc, -2), (0x1dd, -79), (0x1f3, -2), (0x250, 10783), (0x251, 10780),
  (0x252, 10782), (0x253, -210), (0x254, -206), (0x259, -202), (0x25b, -203), (0x25c, 42319),
  (0x260, -205), (0x261, 42315), (0x263, -207), (0x264, 42343), (0x265, 42280), (0x266, 42308),
  (0x268, -209), (0x269, -211), (0x26a, 42308), (0x26b, 10743), (0x26c, 42305), (0x26f, -211),
  (0x271, 10749), (0x272, -213), (0x275, -214), (0x27d, 10727), (0x280, -218), (0x282, 42307),
  (0x283, -218), (0x287, 42282), (0x288, -218), (0x289, -69), (0x28c, -71), (0x292, -219),
  (0x29d, 42261), (0x29e, 42258), (0x3ac, -38), (0x3cc, -64), (0x3d7, -8), (0x3f2, 7),
  (0x3f3, -116), (0x4cf, -15), (0x1d79, 35332), (0x1d7d, 3814), (0x1d8e, 35384), (0x1f51, 8),
  (0x1f53, 8), (0x1f55, 8), (0x1f57, 8), (0x1fe5, 7), (0x214e, -28), (0x2c65, -10795),
  (0x2c66, -10792), (0x2d27, -7264), (0x2d2d, -7264), (0xa794, 48), (0xab53, -928)]

/-- One-to-one mappings of small letters to capitals that map back to them. -/
def mutualRuns : List CaseRun :=
  pairedRanges.map (fun (lo, hi) => ⟨lo, hi, 2, -1⟩) ++
    neighbourShifts.map (fun (lo, hi, shift) => ⟨lo, hi, 1, shift⟩) ++
    singleShifts.map fun (n, shift) => ⟨n, n, 1, shift⟩

/-- One-to-one mappings to upper case. -/
def upperRuns : List CaseRun :=
  mutualRuns ++ List.map (fun (n, shift) => ⟨n, n, 1, shift⟩) [
    (0xb5, 743), (0x131, -232), (0x17f, -300), (0x1c5, -1), (0x1c8, -1), (0x1cb, -1), (0x1f2, -1),
    (0x345, 84), (0x3c2, -31), (0x3d0, -62), (0x3d1, -57), (0x3d5, -47), (0x3d6, -54), (0x3f0, -86),
    (0x3f1, -80), (0x3f5, -96), (0x1c80, -6254), (0x1c81, -6253), (0x1c82, -6244), (0x1c83, -6242),
    (0x1c84, -6242), (0x1c85, -6243), (0x1c86, -6236), (0x1c87, -6181), (0x1c88, 35266),
    (0x1e9b, -59), (0x1fbe, -7205)]

/-- Eight characters with an iota below, and their forms for titles: their upper case is that of the
characters without it, which begin at `capital`, with an iota after it. -/
def iotaSequences (first capital : Nat) : List (Nat × List Nat) :=
  (List.range 16).map fun i => (first + i, [capital + i % 8, 0x399])

/-- Characters whose upper case is several characters. -/
def upperSequences : List (Nat × List Nat) :=
  iotaSequences 0x1f80 0x1f08 ++ iotaSequences 0x1f90 0x1f28 ++ iotaSequences 0x1fa0 0x1f68 ++ [
    (0xdf, [0x53, 0x53]), (0x149, [0x2bc, 0x4e]), (0x1f0, [0x4a, 0x30c]),
    (0x390, [0x399, 0x308, 0x301]), (0x3b0, [0x3a5, 0x308, 0x301]), (0x587, [0x535, 0x552]),
    (0x1e96, [0x48, 0x331]), (0x1e97, [0x54, 0x308]), (0x1e98, [0x57, 0x30a]),
    (0x1e99, [0x59, 0x30a]), (0x1e9a, [0x41, 0x2be]), (0x1f50, [0x3a5, 0x313]),
    (0x1f52, [0x3a5, 0x313, 0x300]), (0x1f54, [0x3a5, 0x313, 0x301]),
    (0x1f56, [0x3a5, 0x313, 0x342]), (0x1fb2, [0x1fba, 0x399]), (0x1fb3, [0x391, 0x399]),
    (0x1fb4, [0x386, 0x399]), (0x1fb6, [0x391, 0x342]), (0x1fb7, [0x391, 0x342, 0x399]),
    (0x1fbc, [0x391, 0x399]), (0x1fc2, [0x1fca, 0x399]), (0x1fc3, [0x397, 0x399]),
    (0x1fc4, [0x389, 0x399]), (0x1fc6, [0x397, 0x342]), (0x1fc7, [0x397, 0x342, 0x399]),
    (0x1fcc, [0x397, 0x399]), (0x1fd2, [0x399, 0x308, 0x300]), (0x1fd3, [0x399, 0x308, 0x301]),
    (0x1fd6, [0x399, 0x342]), (0x1fd7, [0x399, 0x308, 0x342]), (0x1fe2, [0x3a5, 0x308, 0x300]),
    (0x1fe3, [0x3a5, 0x308, 0x301]), (0x1fe4, [0x3a1, 0x313]), (0x1fe6, [0x3a5, 0x342]),
    (0x1fe7, [0x3a5, 0x308, 0x342]), (0x1ff2, [0x1ffa, 0x399]), (0x1ff3, [0x3a9, 0x399]),
    (0x1ff4, [0x38f, 0x399]), (0x1ff6, [0x3a9, 0x342]), (0x1ff7, [0x3a9, 0x342, 0x399]),
    (0x1ffc, [0x3a9, 0x399]), (0xfb00, [0x46, 0x46]), (0xfb01, [0x46, 0x49]),
    (0xfb02, [0x46, 0x4c]), (0xfb03, [0x46, 0x46, 0x49]), (0xfb04, [0x46, 0x46, 0x4c]),
    (0xfb05, [0x53, 0x54]), (0xfb06, [0x53, 0x54]), (0xfb13, [0x544, 0x546]),
    (0xfb14, [0x544, 0x535]), (0xfb15, [0x544, 0x53b]), (0xfb16, [0x54e, 0x546]),
    (0xfb17, [0x544, 0x53d])]

/-- One-to-one mappings to lower case. -/
def lowerRuns : List CaseRun :=
  mutualRuns.map CaseRun.back ++ List.map (fun (lo, hi, shift) => ⟨lo, hi, 1, shift⟩) [
    (0x1c5, 0x1c5, 1), (0x1c8, 0x1c8, 1), (0x1cb, 0x1cb, 1), (0x1f2, 0x1f2, 1), (0x3f4, 0x3f4, -60),
    (0x1e9e, 0x1e9e, -7615), (0x1f88, 0x1f8f, -8), (0x1f98, 0x1f9f, -8), (0x1fa8, 0x1faf, -8),
    (0x1fbc, 0x1fbc, -9), (0x1fcc, 0x1fcc, -9), (0x1ffc, 0x1ffc, -9), (0x2126, 0x2126, -7517),
    (0x212a, 0x212a, -8383), (0x212b, 0x212b, -8262)]

/-- Characters whose lower case is several characters. -/
def lowerSequences : List (Nat × List Nat) := [
  (0x130, [0x69, 0x307])]

/-- Characters that a search for a cased neighbour passes over (Case_Ignorable). -/
def caseIgnorableRanges : Ranges := .ofLengths 0 [
  39, 1, 6, 1, 11, 1, 35, 1, 1, 1, 71, 1, 4, 1, 1, 1, 4, 1, 2, 2, 503, 192, 4, 2, 4, 1, 9, 2, 1, 1,
  251, 7, 207, 1, 5, 1, 49, 45, 1, 1, 1, 2, 1, 2, 1, 1, 44, 1, 11, 6, 10, 11, 1, 1, 35, 1, 10, 21,
  16, 1, 101, 8, 1, 10, 1, 4, 33, 1, 1, 1, 30, 27, 91, 11, 58, 11, 4, 1, 2, 1, 24, 24, 43, 3, 44, 1,
  7, 2, 5, 9, 41, 58, 55, 1, 1, 1, 4, 8, 4, 1, 3, 7, 10, 2, 13, 1, 15, 1, 58, 1, 4, 4, 8, 1, 20, 2,
  26, 1, 2, 2, 57, 1, 4, 2, 4, 2, 2, 3, 3, 1, 30, 2, 3, 1, 11, 2, 57, 1, 4, 5, 1, 2, 4, 1, 20, 2,
  22, 6, 1, 1, 58, 1, 2, 1, 1, 4, 8, 1, 7, 2, 11, 2, 30, 1, 61, 1, 12, 1, 50, 1, 3, 1, 55, 1, 1, 3,
  5, 3, 1, 4, 7, 2, 11, 2, 29, 1, 58, 1, 2, 1, 6, 1, 5, 2, 20, 2, 28, 2, 57, 2, 4, 4, 8, 1, 20, 2,
  29, 1, 72, 1, 7, 3, 1, 1, 90, 1, 2, 7, 11, 9, 98, 1, 2, 9, 9, 1, 1, 7, 73, 2, 27, 1, 1, 1, 1, 1,
  55, 14, 1, 5, 1, 2, 5, 11, 1, 36, 9, 1, 102, 4, 1, 6, 1, 2, 2, 2, 25, 2, 4, 3, 16, 4, 13, 1, 2, 2,
  6, 1, 15, 1, 94, 1, 608, 3, 946, 3, 29, 2, 30, 2, 30, 2, 64, 2, 1, 7, 8, 1, 2, 11, 3, 1, 5, 1, 45,
  5, 51, 1, 65, 2, 34, 1, 118, 3, 4, 2, 9, 1, 6, 3, 219, 2, 2, 1, 58, 1, 1, 7, 1, 1, 1, 1, 2, 8, 6,
  10, 2, 1, 39, 1, 8, 46, 2, 12, 20, 4, 48, 1, 1, 5, 1, 1, 5, 1, 40, 9, 12, 2, 32, 4, 2, 2, 1, 3,
  56, 1, 1, 2, 3, 1, 1, 3, 58, 8, 2, 2, 64, 6, 82, 3, 1, 13, 1, 7, 4, 1, 6, 1, 3, 2, 50, 63, 13, 1,
  34, 101, 445, 1, 1, 3, 11, 3, 13, 3, 13, 3, 13, 2, 12, 5, 8, 2, 10, 1, 2, 1, 2, 5, 49, 5, 1, 10,
  1, 1, 13, 1, 16, 13, 51, 33, 2955, 2, 113, 3, 125, 1, 15, 1, 96, 32, 47, 1, 469, 1, 36, 4, 3, 5,
  5, 1, 93, 6, 93, 3, 28438, 1, 1250, 6, 270, 1, 98, 4, 1, 10, 1, 1, 28, 4, 80, 2, 14, 34, 78, 1,
  23, 3, 102, 4, 3, 2, 8, 1, 3, 1, 4, 1, 25, 2, 5, 1, 151, 2, 26, 18, 13, 1, 38, 8, 25, 11, 46, 3,
  48, 1, 2, 4, 2, 2, 17, 1, 21, 2, 66, 6, 2, 2, 2, 2, 12, 1, 8, 1, 35, 1, 11, 1, 51, 1, 1, 3, 2, 2,
  5, 2, 1, 1, 27, 1, 14, 2, 5, 2, 1, 1, 100, 5, 9, 3, 121, 1, 2, 1, 4, 1, 20272, 1, 147, 17, 573,
  16, 3, 1, 12, 16, 34, 1, 2, 1, 169, 1, 7, 1, 6, 1, 11, 1, 35, 1, 1, 1, 47, 1, 45, 2, 67, 1, 21, 3,
  513, 1, 226, 1, 149, 5, 1029, 6, 1, 42, 1, 9, 582, 3, 1, 2, 5, 4, 40, 3, 4, 1, 165, 2, 573, 4, 38,
  1, 26, 5, 1, 1, 315, 2, 24, 1, 52, 6, 70, 11, 49, 4, 123, 1, 54, 15, 41, 1, 2, 2, 10, 3, 49, 4, 2,
  2, 2, 1, 4, 1, 10, 1, 50, 3, 36, 5, 1, 8, 62, 1, 12, 2, 52, 9, 10, 4, 2, 1, 95, 3, 2, 1, 1, 2, 6,
  1, 2, 1, 157, 1, 3, 8, 21, 2, 57, 2, 3, 1, 37, 7, 3, 5, 70, 6, 13, 1, 1, 1, 1, 1, 14, 2, 85, 8, 2,
  3, 1, 1, 23, 1, 84, 6, 1, 1, 4, 2, 1, 2, 238, 4, 6, 2, 1, 2, 27, 2, 85, 8, 2, 1, 1, 2, 106, 1, 1,
  1, 2, 6, 1, 1, 101, 1, 1, 1, 2, 4, 1, 5, 259, 9, 1, 2, 256, 2, 1, 1, 4, 1, 144, 4, 2, 2, 4, 1, 32,
  10, 40, 6, 2, 4, 8, 1, 9, 6, 2, 3, 46, 13, 1, 2, 198, 1, 1, 3, 1, 1, 201, 7, 1, 6, 1, 1, 82, 22,
  2, 7, 1, 2, 1, 2, 122, 6, 3, 1, 1, 2, 1, 7, 1, 1, 72, 2, 3, 1, 1, 1, 65, 1, 281, 2, 11, 2, 52, 5,
  5, 1, 1, 1, 23, 1, 5333, 17, 6, 15, 11464, 12, 3, 3, 2496, 5, 59, 7, 9, 4, 508, 3, 40, 2, 482, 1,
  63, 17, 64, 2, 1, 2, 13, 2, 16380, 4, 1, 7, 1, 2, 3230, 2, 1, 4, 4700, 46, 2, 23, 544, 3, 9, 16,
  2, 7, 30, 4, 148, 3, 1979, 55, 4, 50, 8, 1, 14, 1, 22, 5, 1, 15, 1360, 7, 1, 17, 2, 7, 1, 2, 1, 5,
  5, 62, 33, 1, 160, 14, 368, 1, 61, 4, 507, 5, 254, 2, 243, 1, 2, 1, 7, 2, 5, 1, 9, 1, 464, 7, 109,
  8, 2735, 5, 789505, 1, 30, 96, 128, 240]

/-- Characters that have a case (Cased) and are not passed over. -/
def casedRanges : Ranges := .ofLengths 0 [
  65, 26, 6, 26, 47, 1, 10, 1, 4, 1, 5, 23, 1, 31, 1, 195, 1, 4, 4, 208, 2, 26, 192, 4, 2, 2, 3, 3,
  1, 1, 6, 1, 1, 3, 1, 1, 1, 20, 1, 83, 1, 139, 8, 166, 1, 38, 9, 41, 2839, 38, 1, 1, 5, 1, 2, 43,
  2, 3, 672, 86, 2, 6, 2178, 11, 5, 43, 2, 3, 64, 44, 63, 13, 1, 34, 101, 278, 2, 6, 2, 38, 2, 6, 2,
  8, 1, 1, 1, 1, 1, 1, 1, 31, 2, 53, 1, 7, 1, 1, 3, 3, 1, 7, 3, 4, 2, 6, 4, 13, 5, 3, 1, 7, 261, 1,
  4, 1, 2, 10, 1, 1, 3, 5, 6, 1, 1, 1, 1, 1, 1, 4, 1, 6, 4, 1, 2, 4, 5, 5, 4, 1, 17, 32, 3, 2, 817,
  52, 1814, 124, 2, 103, 6, 4, 3, 2, 12, 38, 1, 1, 5, 1, 30994, 46, 18, 28, 134, 78, 1, 23, 3, 4, 1,
  77, 24, 2, 3, 1, 821, 43, 5, 9, 7, 80, 20288, 7, 12, 5, 1033, 26, 6, 26, 1189, 80, 96, 36, 4, 36,
  116, 11, 1, 15, 1, 7, 1, 2, 1, 11, 1, 15, 1, 7, 1, 2, 1731, 51, 13, 51, 93, 22, 10, 22, 2842, 64,
  21856, 64, 32, 25, 2, 25, 25900, 85, 1, 71, 1, 2, 2, 1, 2, 2, 2, 4, 1, 12, 1, 1, 1, 7, 1, 65, 1,
  4, 2, 8, 1, 7, 1, 28, 1, 4, 1, 5, 1, 1, 3, 7, 1, 340, 2, 25, 1, 25, 1, 31, 1, 25, 1, 31, 1, 25, 1,
  31, 1, 25, 1, 31, 1, 25, 1, 8, 1844, 10, 1, 20, 6, 6, 2517, 68, 2028, 26, 6, 26, 6, 26]

/-- The full mapping of one character by a table of sequences and a table of runs. -/
def mapCase (sequences : List (Nat × List Nat)) (runs : List CaseRun) (c : Char) : List Char :=
  match sequences.lookup c.toNat with
  | some codes => codes.map Char.ofNat
  | none => match CaseRun.lookup? runs c.toNat with
    | some code => [Char.ofNat code]
    | none => [c]

/-- Whether the first character that is not passed over has a case. -/
def startsCased (cs : List Char) : Bool :=
  match cs.dropWhile (inRanges caseIgnorableRanges) with
  | [] => false
  | c :: _ => inRanges casedRanges c

/-- A capital sigma ends a word when a cased character stands before it and none after it. -/
def finalSigma (before after : List Char) : Bool :=
  startsCased before && !startsCased after

/-- Lower case of the characters `cs`, which follow the characters `before` (nearest first). -/
def lowerAfter (before : List Char) : List Char → List Char
  | [] => []
  | c :: cs =>
    (if c = 'Σ' then [if finalSigma before cs then 'ς' else 'σ']
      else mapCase lowerSequences lowerRuns c) ++ lowerAfter (c :: before) cs

/-- The text in upper case. -/
def upper (s : String) : String :=
  String.ofList (s.toList.flatMap (mapCase upperSequences upperRuns))

/-- The text in lower case. -/
def lower (s : String) : String :=
  String.ofList (lowerAfter [] s.toList)

end TypedLisp.Text
