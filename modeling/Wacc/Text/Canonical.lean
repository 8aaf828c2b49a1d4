/-
  Canonical equivalence of characters (Unicode 15).

  `composites` lists the characters that are written for a pair of characters, `expansions` the
  ones that stand for a pair but are never written for it, and `singletons` the ones that stand
  for another character.  `classes` lists the characters with a non-zero combining class.
  `marked` and `markLike` list characters that have no parts but look like some that do.
-/
import Wacc.Text.Ranges

namespace Wacc.Canonical

/-- Numbers two by two, the first of each two by its distance from the one before. -/
def steps (at_ : Nat) : List Nat → List (Nat × Nat)
  | a :: c :: rest => (at_ + a, c) :: steps (at_ + a) rest
  | _ => []

/-- Composite, first and second character, from lists of first characters and composites by second
    character. -/
def pairs (table : List (Nat × String)) : Array (Nat × Nat × Nat) :=
  (table.flatMap fun (b, s) => (steps 0 (hexNumbers s)).map fun (a, c) => (c, a, b)).toArray

def ranked (table : List (Nat × String)) : Array (Nat × Nat × Nat) :=
  (table.flatMap fun (k, s) => (Ranges.ofString s).toList.map fun (lo, hi) => (lo, hi, k)).toArray

/-- The characters from the first one on, each with the one that it stands for. -/
def runs (table : List (Nat × String)) : Array (Nat × Nat) :=
  (table.flatMap fun (first, s) => (hexNumbers s).zipIdx.map fun (a, i) => (first + i, a)).toArray

def composites : Array (Nat × Nat × Nat) := pairs [
  (0x300, "41 C0 4 C8 4 CC 5 1F8 1 D2 6 D9 2 1E80 2 1EF2 8 E0 4 E8 4 EC 5 1F9 1 F2 6 F9 2 1E81 2
    1EF3 2F 1FED 1A 1EA6 8 1EC0 A 1ED2 8 1DB 6 1EA7 8 1EC1 A 1ED3 8 1DC 6 1EB0 1 1EB1 F 1E14 1
    1E15 39 1E50 1 1E51 53 1EDC 1 1EDD E 1EEA 1 1EEB 1E1 1FBA 4 1FC8 2 1FCA 2 1FDA 6 1FF8 6 1FEA 4
    1FFA 8 1F70 4 1F72 2 1F74 2 1F76 6 1F78 6 1F7A 4 1F7C 1 1FD2 1 1FE2 4A 400 3 40D 1D 450 3 45D
    1AC8 1F02 1 1F03 7 1F0A 1 1F0B 7 1F12 1 1F13 7 1F1A 1 1F1B 7 1F22 1 1F23 7 1F2A 1 1F2B 7 1F32
    1 1F33 7 1F3A 1 1F3B 7 1F42 1 1F43 7 1F4A 1 1F4B 7 1F52 1 1F53 8 1F5B 7 1F62 1 1F63 7 1F6A 1
    1F6B 56 1FCD 3F 1FDD"),
  (0x301, "41 C1 2 106 2 C9 2 1F4 2 CD 2 1E30 1 139 1 1E3E 1 143 1 D3 1 1E54 2 154 1 15A 2 DA 2
    1E82 2 DD 1 179 7 E1 2 107 2 E9 2 1F5 2 ED 2 1E31 1 13A 1 1E3F 1 144 1 F3 1 1E55 2 155 1 15B 2
    FA 2 1E83 2 FD 1 17A 2E 385 1A 1EA4 3 1FA 1 1FC 1 1E08 3 1EBE 5 1E2E 5 1ED0 1 1E4C 3 1FE 4 1D7
    6 1EA5 3 1FB 1 1FD 1 1E09 3 1EBF 5 1E2F 5 1ED1 1 1E4D 3 1FF 4 1D8 6 1EAE 1 1EAF F 1E16 1 1E17
    39 1E52 1 1E53 1B 1E78 1 1E79 37 1EDA 1 1EDB E 1EE8 1 1EE9 1E1 386 4 388 2 389 2 38A 6 38C 6
    38E 4 38F 8 3AC 4 3AD 2 3AE 2 3AF 6 3CC 6 3CD 4 3CE 1 390 1 3B0 7 3D3 41 403 7 40C 19 453 7
    45C 1AC6 1F04 1 1F05 7 1F0C 1 1F0D 7 1F14 1 1F15 7 1F1C 1 1F1D 7 1F24 1 1F25 7 1F2C 1 1F2D 7
    1F34 1 1F35 7 1F3C 1 1F3D 7 1F44 1 1F45 7 1F4C 1 1F4D 7 1F54 1 1F55 8 1F5D 7 1F64 1 1F65 7
    1F6C 1 1F6D 56 1FCE 3F 1FDE"),
  (0x302, "41 C2 2 108 2 CA 2 11C 1 124 1 CE 1 134 5 D4 4 15C 2 DB 2 174 2 176 1 1E90 7 E2 2 109 2
    EA 2 11D 1 125 1 EE 1 135 5 F4 4 15D 2 FB 2 175 2 177 1 1E91 1E26 1EAC 1 1EAD 17 1EC6 1 1EC7
    13 1ED8 1 1ED9"),
  (0x303, "41 C3 4 1EBC 4 128 5 D1 1 D5 6 168 1 1E7C 3 1EF8 8 E3 4 1EBD 4 129 5 F1 1 F5 6 169 1
    1E7D 3 1EF9 49 1EAA 8 1EC4 A 1ED6 E 1EAB 8 1EC5 A 1ED7 E 1EB4 1 1EB5 9D 1EE0 1 1EE1 E 1EEE 1
    1EEF"),
  (0x308, "41 C4 4 CB 3 1E26 1 CF 6 D6 6 DC 2 1E84 1 1E8C 1 178 8 E4 4 EB 3 1E27 1 EF 6 F6 5 1E97 1
    FC 2 1E85 1 1E8D 1 FF 5C 1E4E 20 1E4F 75 1E7A 1 1E7B 22E 3AA C 3AB 14 3CA C 3CB D 3D4 34 407 A
    4D2 5 401 1 4DC 1 4DE 1 4E4 6 4E6 5 4F0 4 4F4 4 4F8 2 4EC 3 4D3 5 451 1 4DD 1 4DF 1 4E5 6 4E7
    5 4F1 4 4F5 4 4F9 2 4ED 9 457 82 4DA 1 4DB F 4EA 1 4EB"),
  (0x30A, "41 C5 14 16E C E5 14 16F 2 1E98 2 1E99"),
  (0x327, "43 C7 1 1E10 1 228 2 122 1 1E28 3 136 1 13B 2 145 4 156 1 15E 1 162 F E7 1 1E11 1 229 2
    123 1 1E29 3 137 1 13C 2 146 4 157 1 15F 1 163"),
  (0x304, "41 100 4 112 2 1E20 2 12A 6 14C 6 16A 4 232 8 101 4 113 2 1E21 2 12B 6 14D 6 16B 4 233
    4B 1DE 2 1E2 F 22C 1 22A 6 1D5 8 1DF 2 1E3 F 22D 1 22B 6 1D6 EE 1EC 1 1ED 3B 1E0 1 1E1 7 230 1
    231 162 1FB9 8 1FD9 C 1FE9 C 1FB1 8 1FD1 C 1FE1 53 4E2 B 4EE 15 4E3 B 4EF 19F3 1E38 1 1E39 23
    1E5C 1 1E5D"),
  (0x306, "41 102 4 114 2 11E 2 12C 6 14E 6 16C C 103 4 115 2 11F 2 12D 6 14F 6 16D 1B3 1E1C 1 1E1D
    168 1FB8 8 1FD8 C 1FE8 C 1FB0 8 1FD0 C 1FE0 4B 4D0 5 4D6 1 4C1 2 419 B 40E D 4D1 5 4D7 1 4C2 2
    439 B 45E 1A5D 1EB6 1 1EB7"),
  (0x328, "41 104 4 118 4 12E 6 1EA 6 172 C 105 4 119 4 12F 6 1EB 6 173"),
  (0x307, "41 226 1 1E02 1 10A 1 1E0A 1 116 1 1E1E 1 120 1 1E22 1 130 4 1E40 1 1E44 1 22E 1 1E56 2
    1E58 1 1E60 1 1E6A 3 1E86 1 1E8A 1 1E8E 1 17B 7 227 1 1E03 1 10B 1 1E0B 1 117 1 1E1F 1 121 1
    1E23 5 1E41 1 1E45 1 22F 1 1E57 2 1E59 1 1E61 1 1E6B 3 1E87 1 1E8B 1 1E8F 1 17C E0 1E64 1 1E65
    5 1E66 1 1E67 1E 1E9B 1CE3 1E68 1 1E69"),
  (0x30C, "41 1CD 2 10C 1 10E 1 11A 2 1E6 1 21E 1 1CF 2 1E8 1 13D 2 147 1 1D1 3 158 1 160 1 164 1
    1D3 5 17D 7 1CE 2 10D 1 10F 1 11B 2 1E7 1 21F 1 1D0 1 1F0 1 1E9 1 13E 2 148 1 1D2 3 159 1 161
    1 165 1 1D4 5 17E 62 1D9 20 1DA BB 1EE DB 1EF"),
  (0x30B, "4F 150 6 170 1A 151 6 171 3AE 4F2 20 4F3"), (0x31B, "4F 1A0 6 1AF 1A 1A1 6 1B0"),
  (0x30F, "41 200 4 204 4 208 6 20C 3 210 3 214 C 201 4 205 4 209 6 20D 3 211 3 215 3FF 476 1 477"),
  (0x311, "41 202 4 206 4 20A 6 20E 3 212 3 216 C 203 4 207 4 20B 6 20F 3 213 3 217"),
  (0x326, "53 218 1 21A 1F 219 1 21B"), (0x653, "627 622"),
  (0x654, "627 623 21 624 2 626 77 6C2 11 6D3 3 6C0"), (0x655, "627 625"),
  (0x93C, "928 929 8 931 3 934"), (0x9BE, "9C7 9CB"), (0x9D7, "9C7 9CC"), (0xB56, "B47 B48"),
  (0xB3E, "B47 B4B"), (0xB57, "B47 B4C"), (0xBD7, "B92 B94 34 BCC"), (0xBBE, "BC6 BCA 1 BCB"),
  (0xC56, "C46 C48"), (0xCD5, "CBF CC0 7 CC7 4 CCB"), (0xCD6, "CC6 CC8"), (0xCC2, "CC6 CCA"),
  (0xD3E, "D46 D4A 1 D4B"), (0xD57, "D46 D4C"), (0xDCA, "DD9 DDA 3 DDD"), (0xDCF, "DD9 DDC"),
  (0xDDF, "DD9 DDE"), (0x102E, "1025 1026"),
  (0x1B35, "1B05 1B06 2 1B08 2 1B0A 2 1B0C 2 1B0E 4 1B12 29 1B3B 2 1B3D 2 1B40 1 1B41 3 1B43"),
  (0x325, "41 1E00 20 1E01"),
  (0x323, "41 1EA0 1 1E04 2 1E0C 1 1EB8 3 1E24 1 1ECA 2 1E32 1 1E36 1 1E42 1 1E46 1 1ECC 3 1E5A 1
    1E62 1 1E6C 1 1EE4 1 1E7E 1 1E88 2 1EF4 1 1E92 7 1EA1 1 1E05 2 1E0D 1 1EB9 3 1E25 1 1ECB 2
    1E33 1 1E37 1 1E43 1 1E47 1 1ECD 3 1E5B 1 1E63 1 1E6D 1 1EE5 1 1E7F 1 1E89 2 1EF5 1 1E93 126
    1EE2 1 1EE3 E 1EF0 1 1EF1"),
  (0x331, "42 1E06 2 1E0E 7 1E34 1 1E3A 2 1E48 4 1E5E 2 1E6E 6 1E94 8 1E07 2 1E0F 4 1E96 3 1E35 1
    1E3B 2 1E49 4 1E5F 2 1E6F 6 1E95"),
  (0x32D, "44 1E12 1 1E18 7 1E3C 2 1E4A 6 1E70 1 1E76 F 1E13 1 1E19 7 1E3D 2 1E4B 6 1E71 1 1E77"),
  (0x330, "45 1E1A 4 1E2C C 1E74 10 1E1B 4 1E2D C 1E75"), (0x32E, "48 1E2A 20 1E2B"),
  (0x324, "55 1E72 20 1E73"),
  (0x309, "41 1EA2 4 1EBA 4 1EC8 6 1ECE 6 1EE6 4 1EF6 8 1EA3 4 1EBB 4 1EC9 6 1ECF 6 1EE7 4 1EF7 49
    1EA8 8 1EC2 A 1ED4 E 1EA9 8 1EC3 A 1ED5 E 1EB2 1 1EB3 9D 1EDE 1 1EDF E 1EEC 1 1EED"),
  (0x313, "391 1F08 4 1F18 2 1F28 2 1F38 6 1F48 A 1F68 8 1F00 4 1F10 2 1F20 2 1F30 6 1F40 2 1FE4 4
    1F50 4 1F60"),
  (0x314, "391 1F09 4 1F19 2 1F29 2 1F39 6 1F49 2 1FEC 4 1F59 4 1F69 8 1F01 4 1F11 2 1F21 2 1F31 6
    1F41 2 1FE5 4 1F51 4 1F61"),
  (0x342, "A8 1FC1 309 1FB6 6 1FC6 2 1FD6 C 1FE6 4 1FF6 1 1FD7 1 1FE7 1B35 1F06 1 1F07 7 1F0E 1
    1F0F 17 1F26 1 1F27 7 1F2E 1 1F2F 7 1F36 1 1F37 7 1F3E 1 1F3F 17 1F56 1 1F57 8 1F5F 7 1F66 1
    1F67 7 1F6E 1 1F6F 56 1FCF 3F 1FDF"),
  (0x345, "391 1FBC 6 1FCC 12 1FFC 3 1FB4 2 1FC4 3 1FB3 6 1FC3 12 1FF3 5 1FF4 1B32 1F80 1 1F81 1
    1F82 1 1F83 1 1F84 1 1F85 1 1F86 1 1F87 1 1F88 1 1F89 1 1F8A 1 1F8B 1 1F8C 1 1F8D 1 1F8E 1
    1F8F 11 1F90 1 1F91 1 1F92 1 1F93 1 1F94 1 1F95 1 1F96 1 1F97 1 1F98 1 1F99 1 1F9A 1 1F9B 1
    1F9C 1 1F9D 1 1F9E 1 1F9F 31 1FA0 1 1FA1 1 1FA2 1 1FA3 1 1FA4 1 1FA5 1 1FA6 1 1FA7 1 1FA8 1
    1FA9 1 1FAA 1 1FAB 1 1FAC 1 1FAD 1 1FAE 1 1FAF 1 1FB2 4 1FC2 8 1FF2 3A 1FB7 10 1FC7 30 1FF7"),
  (0x338, "3C 226E 1 2260 1 226F 2152 219A 2 219B 2 21AE 3C 21CD 2 21CF 2 21CE 2F 2204 5 2209 3
    220C 18 2224 2 2226 17 2241 7 2244 2 2247 3 2249 5 226D 14 2262 3 2270 1 2271 D 2274 1 2275 3
    2278 1 2279 3 2280 1 2281 1 22E0 1 22E1 5 2284 1 2285 3 2288 1 2289 A 22E2 1 22E3 10 22AC 6
    22AD 1 22AE 2 22AF 7 22EA 1 22EB 1 22EC 1 22ED"),
  (0x3099, "3046 3094 5 304C 2 304E 2 3050 2 3052 2 3054 2 3056 2 3058 2 305A 2 305C 2 305E 2 3060
    2 3062 3 3065 2 3067 2 3069 7 3070 3 3073 3 3076 3 3079 3 307C 22 309E 9 30F4 5 30AC 2 30AE 2
    30B0 2 30B2 2 30B4 2 30B6 2 30B8 2 30BA 2 30BC 2 30BE 2 30C0 2 30C2 3 30C5 2 30C7 2 30C9 7
    30D0 3 30D3 3 30D6 3 30D9 3 30DC 14 30F7 1 30F8 1 30F9 1 30FA B 30FE"),
  (0x309A, "306F 3071 3 3074 3 3077 3 307A 3 307D 54 30D1 3 30D4 3 30D7 3 30DA 3 30DD"),
  (0x110BA, "11099 1109A 2 1109C A 110AB"), (0x11127, "11131 1112E 1 1112F"),
  (0x1133E, "11347 1134B"), (0x11357, "11347 1134C"), (0x114BA, "114B9 114BB"),
  (0x114B0, "114B9 114BC"), (0x114BD, "114B9 114BE"), (0x115AF, "115B8 115BA 1 115BB"),
  (0x11930, "11935 11938")]

def expansions : Array (Nat × Nat × Nat) := pairs [
  (0x301, "308 344"), (0x93C, "915 958 1 959 1 95A 5 95B 5 95C 1 95D 9 95E 4 95F"),
  (0x9BC, "9A1 9DC 1 9DD D 9DF"), (0xA3C, "A16 A59 1 A5A 5 A5B F A5E 7 A33 6 A36"),
  (0xB3C, "B21 B5C 1 B5D"),
  (0xFB7, "F42 F43 A F4D 5 F52 5 F57 5 F5C 37 F93 A F9D 5 FA2 5 FA7 5 FAC"),
  (0xFB5, "F40 F69 50 FB9"), (0xF72, "F71 F73"), (0xF74, "F71 F75"),
  (0xF80, "F71 F81 41 F76 1 F78"), (0x338, "2ADD 2ADC"), (0x5B4, "5D9 FB1D"),
  (0x5B7, "5D0 FB2E 22 FB1F"), (0x5C1, "5E9 FB2A F560 FB2C"), (0x5C2, "5E9 FB2B F560 FB2D"),
  (0x5B8, "5D0 FB2F"),
  (0x5BC, "5D0 FB30 1 FB31 1 FB32 1 FB33 1 FB34 1 FB35 1 FB36 2 FB38 1 FB39 1 FB3A 1 FB3B 1 FB3C 2
    FB3E 2 FB40 1 FB41 2 FB43 1 FB44 2 FB46 1 FB47 1 FB48 1 FB49 1 FB4A"),
  (0x5B9, "5D5 FB4B"), (0x5BF, "5D1 FB4C A FB4D 9 FB4E"),
  (0x1D165, "1D157 1D15E 1 1D15F 61 1D1BB 1 1D1BC"), (0x1D16E, "1D15F 1D160 5C 1D1BD 1 1D1BE"),
  (0x1D16F, "1D15F 1D161 5C 1D1BF 1 1D1C0"), (0x1D170, "1D15F 1D162"), (0x1D171, "1D15F 1D163"),
  (0x1D172, "1D15F 1D164")]

def singletons : Array (Nat × Nat) := runs [
  (0x340, "300 301"), (0x343, "313"), (0x374, "2B9"), (0x37E, "3B"), (0x387, "B7"), (0x1F71, "3AC"),
  (0x1F73, "3AD"), (0x1F75, "3AE"), (0x1F77, "3AF"), (0x1F79, "3CC"), (0x1F7B, "3CD"),
  (0x1F7D, "3CE"), (0x1FBB, "386"), (0x1FBE, "3B9"), (0x1FC9, "388"), (0x1FCB, "389"),
  (0x1FD3, "390"), (0x1FDB, "38A"), (0x1FE3, "3B0"), (0x1FEB, "38E"), (0x1FEE, "385 60"),
  (0x1FF9, "38C"), (0x1FFB, "38F"), (0x1FFD, "B4"), (0x2000, "2002 2003"), (0x2126, "3A9"),
  (0x212A, "4B C5"), (0x2329, "3008 3009"),
  (0xF900, "8C48 66F4 8ECA 8CC8 6ED1 4E32 53E5 9F9C 9F9C 5951 91D1 5587 5948 61F6 7669 7F85 863F
    87BA 88F8 908F 6A02 6D1B 70D9 73DE 843D 916A 99F1 4E82 5375 6B04 721B 862D 9E1E 5D50 6FEB 85CD
    8964 62C9 81D8 881F 5ECA 6717 6D6A 72FC 90CE 4F86 51B7 52DE 64C4 6AD3 7210 76E7 8001 8606 865C
    8DEF 9732 9B6F 9DFA 788C 797F 7DA0 83C9 9304 9E7F 8AD6 58DF 5F04 7C60 807E 7262 78CA 8CC2 96F7
    58D8 5C62 6A13 6DDA 6F0F 7D2F 7E37 964B 52D2 808B 51DC 51CC 7A1C 7DBE 83F1 9675 8B80 62CF 6A02
    8AFE 4E39 5BE7 6012 7387 7570 5317 78FB 4FBF 5FA9 4E0D 6CCC 6578 7D22 53C3 585E 7701 8449 8AAA
    6BBA 8FB0 6C88 62FE 82E5 63A0 7565 4EAE 5169 51C9 6881 7CE7 826F 8AD2 91CF 52F5 5442 5973 5EEC
    65C5 6FFE 792A 95AD 9A6A 9E97 9ECE 529B 66C6 6B77 8F62 5E74 6190 6200 649A 6F23 7149 7489 79CA
    7DF4 806F 8F26 84EE 9023 934A 5217 52A3 54BD 70C8 88C2 8AAA 5EC9 5FF5 637B 6BAE 7C3E 7375 4EE4
    56F9 5BE7 5DBA 601C 73B2 7469 7F9A 8046 9234 96F6 9748 9818 4F8B 79AE 91B4 96B8 60E1 4E86 50DA
    5BEE 5C3F 6599 6A02 71CE 7642 84FC 907C 9F8D 6688 962E 5289 677B 67F3 6D41 6E9C 7409 7559 786B
    7D10 985E 516D 622E 9678 502B 5D19 6DEA 8F2A 5F8B 6144 6817 7387 9686 5229 540F 5C65 6613 674E
    68A8 6CE5 7406 75E2 7F79 88CF 88E1 91CC 96E2 533F 6EBA 541D 71D0 7498 85FA 96A3 9C57 9E9F 6797
    6DCB 81E8 7ACB 7B20 7C92 72C0 7099 8B58 4EC0 8336 523A 5207 5EA6 62D3 7CD6 5B85 6D1E 66B4 8F3B
    884C 964D 898B 5ED3 5140 55C0"),
  (0xFA10, "585A"), (0xFA12, "6674"), (0xFA15, "51DE 732A 76CA 793C 795E 7965 798F 9756 7CBE 7FBD"),
  (0xFA20, "8612"), (0xFA22, "8AF8"), (0xFA25, "9038 90FD"),
  (0xFA2A, "98EF 98FC 9928 9DB4 90DE 96B7 4FAE 50E7 514D 52C9 52E4 5351 559D 5606 5668 5840 58A8
    5C64 5C6E 6094 6168 618E 61F2 654F 65E2 6691 6885 6D77 6E1A 6F22 716E 722B 7422 7891 793E 7949
    7948 7950 7956 795D 798D 798E 7A40 7A81 7BC0 7DF4 7E09 7E41 7F72 8005 81ED 8279 8279 8457 8910
    8996 8B01 8B39 8CD3 8D08 8FB6 9038 96E3 97FF 983B 6075 242EE 8218"),
  (0xFA70, "4E26 51B5 5168 4F80 5145 5180 52C7 52FA 559D 5555 5599 55E2 585A 58B3 5944 5954 5A62
    5B28 5ED2 5ED9 5F69 5FAD 60D8 614E 6108 618E 6160 61F2 6234 63C4 641C 6452 6556 6674 6717 671B
    6756 6B79 6BBA 6D41 6EDB 6ECB 6F22 701E 716E 77A7 7235 72AF 732A 7471 7506 753B 761D 761F 76CA
    76DB 76F4 774A 7740 78CC 7AB1 7BC0 7C7B 7D5B 7DF4 7F3E 8005 8352 83EF 8779 8941 8986 8996 8ABF
    8AF8 8ACB 8B01 8AFE 8AED 8B39 8B8A 8D08 8F38 9072 9199 9276 967C 96E3 9756 97DB 97FF 980B 983B
    9B12 9F9C 2284A 22844 233D5 3B9D 4018 4039 25249 25CD0 27ED3 9F43 9F8E"),
  (0x2F800, "4E3D 4E38 4E41 20122 4F60 4FAE 4FBB 5002 507A 5099 50E7 50CF 349E 2063A 514D 5154 5164
    5177 2051C 34B9 5167 518D 2054B 5197 51A4 4ECC 51AC 51B5 291DF 51F5 5203 34DF 523B 5246 5272
    5277 3515 52C7 52C9 52E4 52FA 5305 5306 5317 5349 5351 535A 5373 537D 537F 537F 537F 20A2C
    7070 53CA 53DF 20B63 53EB 53F1 5406 549E 5438 5448 5468 54A2 54F6 5510 5553 5563 5584 5584
    5599 55AB 55B3 55C2 5716 5606 5717 5651 5674 5207 58EE 57CE 57F4 580D 578B 5832 5831 58AC
    214E4 58F2 58F7 5906 591A 5922 5962 216A8 216EA 59EC 5A1B 5A27 59D8 5A66 36EE 36FC 5B08 5B3E
    5B3E 219C8 5BC3 5BD8 5BE7 5BF3 21B18 5BFF 5C06 5F53 5C22 3781 5C60 5C6E 5CC0 5C8D 21DE4 5D43
    21DE6 5D6E 5D6B 5D7C 5DE1 5DE2 382F 5DFD 5E28 5E3D 5E69 3862 22183 387C 5EB0 5EB3 5EB6 5ECA
    2A392 5EFE 22331 22331 8201 5F22 5F22 38C7 232B8 261DA 5F62 5F6B 38E3 5F9A 5FCD 5FD7 5FF9 6081
    393A 391C 6094 226D4 60C7 6148 614C 614E 614C 617A 618E 61B2 61A4 61AF 61DE 61F2 61F6 6210
    621B 625D 62B1 62D4 6350 22B0C 633D 62FC 6368 6383 63E4 22BF1 6422 63C5 63A9 3A2E 6469 647E
    649D 6477 3A6C 654F 656C 2300A 65E3 66F8 6649 3B19 6691 3B08 3AE4 5192 5195 6700 669C 80AD
    43D9 6717 671B 6721 675E 6753 233C3 3B49 67FA 6785 6852 6885 2346D 688E 681F 6914 3B9D 6942
    69A3 69EA 6AA8 236A3 6ADB 3C18 6B21 238A7 6B54 3C4E 6B72 6B9F 6BBA 6BBB 23A8D 21D0B 23AFA 6C4E
    23CBC 6CBF 6CCD 6C67 6D16 6D3E 6D77 6D41 6D69 6D78 6D85 23D1E 6D34 6E2F 6E6E 3D33 6ECB 6EC7
    23ED1 6DF9 6F6E 23F5E 23F8E 6FC6 7039 701E 701B 3D96 704A 707D 7077 70AD 20525 7145 24263 719C
    243AB 7228 7235 7250 24608 7280 7295 24735 24814 737A 738B 3EAC 73A5 3EB8 3EB8 7447 745C 7471
    7485 74CA 3F1B 7524 24C36 753E 24C92 7570 2219F 7610 24FA1 24FB8 25044 3FFC 4008 76F4 250F3
    250F2 25119 25133 771E 771F 771F 774A 4039 778B 4046 4096 2541D 784E 788C 78CC 40E3 25626 7956
    2569A 256C5 798F 79EB 412F 7A40 7A4A 7A4F 2597C 25AA7 25AA7 7AEE 4202 25BAB 7BC6 7BC9 4227
    25C80 7CD2 42A0 7CE8 7CE3 7D00 25F86 7D63 4301 7DC7 7E02 7E45 4334 26228 26247 4359 262D9 7F7A
    2633E 7F95 7FFA 8005 264DA 26523 8060 265A8 8070 2335F 43D5 80B2 8103 440B 813E 5AB5 267A7
    267B5 23393 2339C 8201 8204 8F9E 446B 8291 828B 829D 52B3 82B1 82B3 82BD 82E6 26B3C 82E5 831D
    8363 83AD 8323 83BD 83E7 8457 8353 83CA 83CC 83DC 26C36 26D6B 26CD5 452B 84F1 84F3 8516 273CA
    8564 26F2C 455D 4561 26FB1 270D2 456B 8650 865C 8667 8669 86A9 8688 870E 86E2 8779 8728 876B
    8786 45D7 87E1 8801 45F9 8860 8863 27667 88D7 88DE 4635 88FA 34BB 278AE 27966 46BE 46C7 8AA0
    8AED 8B8A 8C55 27CA8 8CAB 8CC1 8D1B 8D77 27F2F 20804 8DCB 8DBC 8DF0 208DE 8ED4 8F38 285D2
    285ED 9094 90F1 9111 2872E 911B 9238 92D7 92D8 927C 93F9 9415 28BFA 958B 4995 95B7 28D77 49E6
    96C3 5DB2 9723 29145 2921A 4A6E 4A76 97E0 2940A 4AB2 29496 980B 980B 9829 295B6 98E2 4B33 9929
    99A7 99C2 99FE 4BCE 29B30 9B12 9C40 9CFD 4CCE 4CED 9D67 2A0CE 4CF8 2A105 2A20E 2A291 9EBB 4D56
    9EF9 9EFE 9F05 9F0F 9F16 9F3B 2A600")]

def classes : Array (Nat × Nat × Nat) := ranked [
  (230, "300-14 29-7 2 4-2 4-2 5 4 8-C 114-4 10B-3 2-2 3-5 7-1 2-1 3 15 4C-7 3C-1 3-4 2-1 78-6 3-3
    2 3-1 3-1 44 2-1 2-1 4 3 2-2 2 2 2 2-1 A1-6 2 23-3 2-8 2-2 2-4 6B 4-3 2B-4 6-D 3-1 2-1 2-2 7-2
    2-1 3-4 52 2-1 AA 584-1 3-1 3D6-2 47E 15D DD 5E-7 34-4 7-1 5-1 3-4 2-3 9D 2-6 15D-2 8-1 5 14
    4-1 C7-1 2-6 2-1 5-24 6 3 2D2-1 3-3 4-1 5 6 2 7 BFF-2 EF-1F 7870 5-9 21-1 51-1 1EF-11 1BF 2-1
    4-1 6-1 2 535F-6 8-1 547-4 695 29 AD 23F-3 184-1 9C-2 2 36 2 17C-2 264-6 4-4 EA 56D2-6 664F-4
    21-3 95-2 DBC-6 2-10 3-6 2-1 2-4 65 A1-6 178 3E-3 200 455-5"),
  (232, "315 5 3E 1A9E 1236 1B4C0-1"),
  (220, "316-3 3-4 3-3 3-A 6-3 B-2 4-1 5-3 3-1 237 5 5 7-5 3 1B 90-1 6 3 84 7 3 44 3 3-2 2-1 2 4 2
    2 2 AA B 5C-2 3E-2 34-4 10 3 3 4-2 7 3-1 58 5C6-1 1C 2 8F C7 8AE DD 67 36-5 3 2-1 3-1 6 A2
    169-4 3-3 E D5 8 5 2A 4 2 2E9 4-3 883C-2 187 5373-6 3D0 E3 72D 2D AC 417-2 47-1 4 2-3 33 2
    C1F6-7 8-1 1363 3E2-6"),
  (216, "31B C1E 1C22C-1 8-4"), (202, "321-1 5-1 1AA8"),
  (1, "334-4 199C E-6 3EA-1 5-2 B-1 4-1 E94E 60B7-4 51AA 14C9-2"), (240, "345"),
  (233, "35C 3 3 1A9A"), (234, "35D-1 2-1 1A6C"), (222, "59A 13 138C 16F4"),
  (228, "5AE 12FB 54E-1 1233"), (10, "5B0"), (11, "5B1"), (12, "5B2"), (13, "5B3"), (14, "5B4"),
  (15, "5B5"), (16, "5B6"), (17, "5B7"), (18, "5B8 F"), (19, "5B9-1"), (20, "5BB"), (21, "5BC"),
  (22, "5BD"), (23, "5BF"), (24, "5C1"), (25, "5C2"), (30, "618 36"), (31, "619 36"),
  (32, "61A 36"), (27, "64B 2A5"), (28, "64C 2A5"), (29, "64D 2A5"), (33, "651"), (34, "652"),
  (35, "670"), (36, "711"),
  (7, "93C 80 80 80 80 100 80 37B AFD B2 51 8D7C 6707 B9 57 6C B3 52-1 10A 7D FD F7 183 109 3FF
    CC08"),
  (9, "94D 80 80 80 80 80 80 80 6E-1 11 7D 70 80 CA B5-1 6DA-1 1F 9E 28E E4 66-1 47-1 118C 7A87 26
    98 8F 6D 136 F7 5E52 607 2A F 3A 7A-1 8C 75 B5 63 F5 80 FD 80 77 75 10E 104-1 A2 54 13 52 1A6
    105-1 52 1AA-1"),
  (84, "C55"), (91, "C56"), (103, "E38-1"), (107, "E48-3"), (118, "EB8-1"), (122, "EC8-3"),
  (129, "F71"), (130, "F72 8-3 3"), (132, "F74"), (214, "1DCE"), (218, "1DFA 1230"),
  (224, "302E-1"), (8, "3099-1"), (26, "FB1E"), (6, "16FF0-1"), (226, "1D16D")]

/-- First and last character of a range, and the number of marks at the end of what they look
    like. -/
def marked : Array (Nat × Nat × Nat) := ranked [
  (1, "A8 7 5 4 10C-2 112-5 9D A 1C39 2-1 3E 19 27 105D-1 1D2-10 86 3 9 E 3 11 9 5 B 3 C856-1 B-1
    AA-2 33 49 63-1 10C-3 24-2 2 2-9 2-B 69-5 E9 F230"),
  (2, "F77 2 ECE5-5 8F-2")]

def markLike : Ranges := Ranges.ofString "3133 2-1 4-5 10-14 CE3B-1 4 2-1 4-5 13-5 3-5 3-5 3-2"

def combiningClass (c : Nat) : Nat :=
  if c < 0x300 then 0
  else match classes.find? fun (lo, hi, _) => lo ≤ c && c ≤ hi with
    | some (_, _, k) => k
    | none => 0

def expand? (c : Nat) : Option (List Nat) :=
  match composites.find? fun (x, _, _) => x == c with
  | some (_, a, b) => some [a, b]
  | none =>
    match expansions.find? fun (x, _, _) => x == c with
    | some (_, a, b) => some [a, b]
    | none => (singletons.find? fun (x, _) => x == c).map fun (_, a) => [a]

/-- The character that is written for a pair.  A pair is told by the low sixteen bits of its
    characters. -/
def composite? (a b : Nat) : Option Nat :=
  let low (n : Nat) : Nat := n % 65536
  (composites.find? fun (_, x, y) => low x == low a && low y == low b).map (·.1)

/-- The vowels and finals of Korean, which join a letter or a syllable before them. -/
def isVowelOrFinal (c : Nat) : Bool := (0x1161 ≤ c && c ≤ 0x1175) || (0x11A8 ≤ c && c ≤ 0x11C2)

def seconds : List Nat := (composites.toList.map fun (_, _, b) => b).eraseDups

def joinsBack (c : Nat) : Bool := 0x300 ≤ c && (isVowelOrFinal c || seconds.contains c)

def marksOf (c : Nat) : Nat :=
  if c < 0xA8 then 0
  else match marked.find? fun (lo, hi, _) => lo ≤ c && c ≤ hi with
    | some (_, _, n) => n
    | none => 0

def isMarkLike (c : Nat) : Bool := 0x3133 ≤ c && markLike.holds c

end Wacc.Canonical
