/-
Upper and lower case of a character, as texts, because some have a longer upper case.
-/

namespace Arena.Text

/-- Runs of capitals beyond ASCII: first and last code point, step, and how far behind each its
small letter stands. -/
def capitalRuns : List (Int × Int × Int × Int) := [
  (192, 214, 1, 32), (216, 222, 1, 32), (256, 302, 2, 1), (306, 310, 2, 1), (313, 327, 2, 1),
  (330, 374, 2, 1), (377, 381, 2, 1), (386, 388, 2, 1), (393, 394, 1, 205), (416, 420, 2, 1),
  (433, 434, 1, 217), (435, 437, 2, 1), (461, 475, 2, 1), (478, 494, 2, 1), (504, 542, 2, 1),
  (546, 562, 2, 1), (582, 590, 2, 1), (880, 882, 2, 1), (904, 906, 1, 37), (910, 911, 1, 63),
  (913, 929, 1, 32), (931, 939, 1, 32), (984, 1006, 2, 1), (1021, 1023, 1, -130),
  (1024, 1039, 1, 80), (1040, 1071, 1, 32), (1120, 1152, 2, 1), (1162, 1214, 2, 1),
  (1217, 1229, 2, 1), (1232, 1326, 2, 1), (1329, 1366, 1, 48), (4256, 4293, 1, 7264),
  (5024, 5103, 1, 38864), (5104, 5109, 1, 8), (7312, 7354, 1, -3008), (7357, 7359, 1, -3008),
  (7680, 7828, 2, 1), (7840, 7934, 2, 1), (7944, 7951, 1, -8), (7960, 7965, 1, -8),
  (7976, 7983, 1, -8), (7992, 7999, 1, -8), (8008, 8013, 1, -8), (8025, 8031, 2, -8),
  (8040, 8047, 1, -8), (8120, 8121, 1, -8), (8122, 8123, 1, -74), (8136, 8139, 1, -86),
  (8152, 8153, 1, -8), (8154, 8155, 1, -100), (8168, 8169, 1, -8), (8170, 8171, 1, -112),
  (8184, 8185, 1, -128), (8186, 8187, 1, -126), (8544, 8559, 1, 16), (9398, 9423, 1, 26),
  (11264, 11311, 1, 48), (11367, 11371, 2, 1), (11390, 11391, 1, -10815), (11392, 11490, 2, 1),
  (11499, 11501, 2, 1), (42560, 42604, 2, 1), (42624, 42650, 2, 1), (42786, 42798, 2, 1),
  (42802, 42862, 2, 1), (42873, 42875, 2, 1), (42878, 42886, 2, 1), (42896, 42898, 2, 1),
  (42902, 42920, 2, 1), (42932, 42946, 2, 1), (42951, 42953, 2, 1), (42966, 42968, 2, 1),
  (65313, 65338, 1, 32), (66560, 66599, 1, 40), (66736, 66771, 1, 40), (66928, 66938, 1, 39),
  (66940, 66954, 1, 39), (66956, 66962, 1, 39), (66964, 66965, 1, 39), (68736, 68786, 1, 64),
  (71840, 71871, 1, 32), (93760, 93791, 1, 32), (125184, 125217, 1, 34)]

/-- Further capitals, each with its small letter. -/
def capitals : List (Int × Int) := [
  (376, 255), (385, 595), (390, 596), (391, 392), (395, 396), (398, 477), (399, 601), (400, 603),
  (401, 402), (403, 608), (404, 611), (406, 617), (407, 616), (408, 409), (412, 623), (413, 626),
  (415, 629), (422, 640), (423, 424), (425, 643), (428, 429), (430, 648), (431, 432), (439, 658),
  (440, 441), (444, 445), (452, 454), (455, 457), (458, 460), (497, 499), (500, 501), (502, 405),
  (503, 447), (544, 414), (570, 11365), (571, 572), (573, 410), (574, 11366), (577, 578),
  (579, 384), (580, 649), (581, 652), (886, 887), (895, 1011), (902, 940), (908, 972), (975, 983),
  (1015, 1016), (1017, 1010), (1018, 1019), (1216, 1231), (4295, 11559), (4301, 11565),
  (8172, 8165), (8498, 8526), (8579, 8580), (11360, 11361), (11362, 619), (11363, 7549),
  (11364, 637), (11373, 593), (11374, 625), (11375, 592), (11376, 594), (11378, 11379),
  (11381, 11382), (11506, 11507), (42877, 7545), (42891, 42892), (42893, 613), (42922, 614),
  (42923, 604), (42924, 609), (42925, 620), (42926, 618), (42928, 670), (42929, 647), (42930, 669),
  (42931, 43859), (42948, 42900), (42949, 642), (42950, 7566), (42960, 42961), (42997, 42998)]

/-- Letters whose capital belongs to another small letter. -/
def smallVariants : List (Int × Int) := [
  (181, 924), (305, 73), (383, 83), (453, 452), (456, 455), (459, 458), (498, 497), (837, 921),
  (962, 931), (976, 914), (977, 920), (981, 934), (982, 928), (1008, 922), (1009, 929),
  (1013, 917), (7296, 1042), (7297, 1044), (7298, 1054), (7299, 1057), (7300, 1058), (7301, 1058),
  (7302, 1066), (7303, 1122), (7304, 42570), (7835, 7776), (8126, 921)]

/-- Letters whose small letter belongs to another capital. -/
def capitalVariants : List (Int × Int) := [
  (453, 454), (456, 457), (459, 460), (498, 499), (1012, 952), (7838, 223), (8124, 8115),
  (8140, 8131), (8188, 8179), (8486, 969), (8490, 107), (8491, 229)]

/-- Letters with an upper case of several characters. -/
def longCapitals : List (Int × List Int) := [
  (223, [83, 83]), (329, [700, 78]), (496, [74, 780]), (912, [921, 776, 769]),
  (944, [933, 776, 769]), (1415, [1333, 1362]), (7830, [72, 817]), (7831, [84, 776]),
  (7832, [87, 778]), (7833, [89, 778]), (7834, [65, 702]), (8016, [933, 787]),
  (8018, [933, 787, 768]), (8020, [933, 787, 769]), (8022, [933, 787, 834]), (8114, [8122, 921]),
  (8115, [913, 921]), (8116, [902, 921]), (8118, [913, 834]), (8119, [913, 834, 921]),
  (8124, [913, 921]), (8130, [8138, 921]), (8131, [919, 921]), (8132, [905, 921]),
  (8134, [919, 834]), (8135, [919, 834, 921]), (8140, [919, 921]), (8146, [921, 776, 768]),
  (8147, [921, 776, 769]), (8150, [921, 834]), (8151, [921, 776, 834]), (8162, [933, 776, 768]),
  (8163, [933, 776, 769]), (8164, [929, 787]), (8166, [933, 834]), (8167, [933, 776, 834]),
  (8178, [8186, 921]), (8179, [937, 921]), (8180, [911, 921]), (8182, [937, 834]),
  (8183, [937, 834, 921]), (8188, [937, 921]), (64256, [70, 70]), (64257, [70, 73]),
  (64258, [70, 76]), (64259, [70, 70, 73]), (64260, [70, 70, 76]), (64261, [83, 84]),
  (64262, [83, 84]), (64275, [1348, 1350]), (64276, [1348, 1333]), (64277, [1348, 1339]),
  (64278, [1358, 1350]), (64279, [1348, 1341])]

def inCapitalRun (n : Int) (run : Int × Int × Int × Int) : Bool :=
  run.1 ≤ n && n ≤ run.2.1 && (n - run.1) % run.2.2.1 == 0

/-- Greek letters with an iota below: eight small letters and their capitals, in turn. -/
def hasIota (n : Int) : Bool := 8064 ≤ n && n ≤ 8111

def upperCodes (n : Int) : List Int :=
  if hasIota n then
    [(if n < 8080 then 7944 else if n < 8096 then 7976 else 8040) + n % 8, 921]
  else
    match longCapitals.lookup n with
    | some codes => codes
    | none =>
      match capitalRuns.find? (fun run => inCapitalRun (n - run.2.2.2) run) with
      | some run => [n - run.2.2.2]
      | none =>
        match capitals.find? (fun pair => pair.2 == n) with
        | some pair => [pair.1]
        | none => [(smallVariants.lookup n).getD n]

def lowerCodes (n : Int) : List Int :=
  if n = 304 then [105, 775]
  else if hasIota n then [n - n / 8 % 2 * 8]
  else
    match capitalRuns.find? (inCapitalRun n) with
    | some run => [n + run.2.2.2]
    | none => [((capitals ++ capitalVariants).lookup n).getD n]

def upperChars (c : Char) : List Char :=
  if c.toNat < 128 then [c.toUpper] else (upperCodes c.toNat).map (Char.ofNat ·.toNat)

def lowerChars (c : Char) : List Char :=
  if c.toNat < 128 then [c.toLower] else (lowerCodes c.toNat).map (Char.ofNat ·.toNat)

def upper (s : String) : String := String.ofList (s.toList.flatMap upperChars)

def lower (s : String) : String := String.ofList (s.toList.flatMap lowerChars)

end Arena.Text
