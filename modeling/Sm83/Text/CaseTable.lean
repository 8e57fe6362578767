/-!
# Case tables

Letters next to one another with counterparts next to one another are given as a run `(first, count,
image)`: the first letter, how many there are, and the counterpart of the first. Characters whose
other case is several characters stand in the expansion tables. Sets of characters are given by the
lengths of their runs.
-/

namespace Sm83.Text

/-- Small letters and their capitals. -/
def caseRuns : List (Nat × Nat × Nat) := [
  (97,26,65), (224,23,192), (248,7,216), (255,1,376), (384,1,579), (405,1,502), (410,1,573),
  (414,1,544), (447,1,503), (454,1,452), (457,1,455), (460,1,458), (477,1,398), (499,1,497),
  (575,2,11390), (592,1,11375), (593,1,11373), (594,1,11376), (595,1,385), (596,1,390), (598,2,393),
  (601,1,399), (603,1,400), (604,1,42923), (608,1,403), (609,1,42924), (611,1,404), (613,1,42893),
  (614,1,42922), (616,1,407), (617,1,406), (618,1,42926), (619,1,11362), (620,1,42925), (623,1,412),
  (625,1,11374), (626,1,413), (629,1,415), (637,1,11364), (640,1,422), (642,1,42949), (643,1,425),
  (647,1,42929), (648,1,430), (649,1,580), (650,2,433), (652,1,581), (658,1,439), (669,1,42930),
  (670,1,42928), (891,3,1021), (940,1,902), (941,3,904), (945,17,913), (963,9,931), (972,1,908),
  (973,2,910), (983,1,975), (1010,1,1017), (1011,1,895), (1072,32,1040), (1104,16,1024),
  (1231,1,1216), (1377,38,1329), (4304,43,7312), (4349,3,7357), (5112,6,5104), (7545,1,42877),
  (7549,1,11363), (7566,1,42950), (7936,8,7944), (7952,6,7960), (7968,8,7976), (7984,8,7992),
  (8000,6,8008), (8017,1,8025), (8019,1,8027), (8021,1,8029), (8023,1,8031), (8032,8,8040),
  (8048,2,8122), (8050,4,8136), (8054,2,8154), (8056,2,8184), (8058,2,8170), (8060,2,8186),
  (8112,2,8120), (8144,2,8152), (8160,2,8168), (8165,1,8172), (8526,1,8498), (8560,16,8544),
  (9424,26,9398), (11312,48,11264), (11365,1,570), (11366,1,574), (11520,38,4256), (11559,1,4295),
  (11565,1,4301), (42900,1,42948), (43859,1,42931), (43888,80,5024), (65345,26,65313),
  (66600,40,66560), (66776,36,66736), (66967,11,66928), (66979,15,66940), (66995,7,66956),
  (67003,2,66964), (68800,51,68736), (71872,32,71840), (93792,32,93760), (125218,34,125184)]

/-- The first of small letters that each stand between their own capital and the next, and how many
there are. -/
def alternatingRuns : List (Nat × Nat) := [
  (257,24), (307,3), (314,8), (331,23), (378,3), (387,2), (392,1), (396,1), (402,1), (409,1),
  (417,3), (424,1), (429,1), (432,1), (436,2), (441,1), (445,1), (462,8), (479,9), (501,1),
  (505,20), (547,9), (572,1), (578,1), (583,5), (881,2), (887,1), (985,12), (1016,1), (1019,1),
  (1121,17), (1163,27), (1218,7), (1233,48), (7681,75), (7841,48), (8580,1), (11361,1), (11368,3),
  (11379,1), (11382,1), (11393,50), (11500,2), (11507,1), (42561,23), (42625,14), (42787,7),
  (42803,31), (42874,2), (42879,5), (42892,1), (42897,2), (42903,10), (42933,8), (42952,2),
  (42961,1), (42967,2), (42998,1)]

/-- Letters with the capital of another letter. -/
def upperRuns : List (Nat × Nat × Nat) := [
  (181,1,924), (305,1,73), (383,1,83), (453,1,452), (456,1,455), (459,1,458), (498,1,497),
  (837,1,921), (962,1,931), (976,1,914), (977,1,920), (981,1,934), (982,1,928), (1008,1,922),
  (1009,1,929), (1013,1,917), (7296,1,1042), (7297,1,1044), (7298,1,1054), (7299,2,1057),
  (7301,1,1058), (7302,1,1066), (7303,1,1122), (7304,1,42570), (7835,1,7776), (8126,1,921)]

/-- Letters with the small form of another letter. -/
def lowerRuns : List (Nat × Nat × Nat) := [
  (453,1,454), (456,1,457), (459,1,460), (498,1,499), (1012,1,952), (7838,1,223), (8072,8,8064),
  (8088,8,8080), (8104,8,8096), (8124,1,8115), (8140,1,8131), (8188,1,8179), (8486,1,969),
  (8490,1,107), (8491,1,229)]

/-- Runs of eight letters, and the capitals that an iota follows in their upper case. -/
def iotaRuns : List (Nat × Nat) := [
  (8064,7944), (8072,7944), (8080,7976), (8088,7976), (8096,8040), (8104,8040)]

/-- Other characters whose upper case is several characters. -/
def upperExpansions : List (Nat × List Nat) := [
  (223,[83,83]), (329,[700,78]), (496,[74,780]), (912,[921,776,769]), (944,[933,776,769]),
  (1415,[1333,1362]), (7830,[72,817]), (7831,[84,776]), (7832,[87,778]), (7833,[89,778]),
  (7834,[65,702]), (8016,[933,787]), (8018,[933,787,768]), (8020,[933,787,769]),
  (8022,[933,787,834]), (8114,[8122,921]), (8115,[913,921]), (8116,[902,921]), (8118,[913,834]),
  (8119,[913,834,921]), (8124,[913,921]), (8130,[8138,921]), (8131,[919,921]), (8132,[905,921]),
  (8134,[919,834]), (8135,[919,834,921]), (8140,[919,921]), (8146,[921,776,768]),
  (8147,[921,776,769]), (8150,[921,834]), (8151,[921,776,834]), (8162,[933,776,768]),
  (8163,[933,776,769]), (8164,[929,787]), (8166,[933,834]), (8167,[933,776,834]), (8178,[8186,921]),
  (8179,[937,921]), (8180,[911,921]), (8182,[937,834]), (8183,[937,834,921]), (8188,[937,921]),
  (64256,[70,70]), (64257,[70,73]), (64258,[70,76]), (64259,[70,70,73]), (64260,[70,70,76]),
  (64261,[83,84]), (64262,[83,84]), (64275,[1348,1350]), (64276,[1348,1333]), (64277,[1348,1339]),
  (64278,[1358,1350]), (64279,[1348,1341])]

/-- Characters whose lower case is several characters. -/
def lowerExpansions : List (Nat × List Nat) := [
  (304,[105,775])]

/-- Letters that have a case and are not skipped when the context of a letter is judged. -/
def casedRuns : List Nat := [
  65, 26, 6, 26, 47, 1, 10, 1, 4, 1, 5, 23, 1, 31, 1, 195, 1, 4, 4, 208, 1, 27, 192, 4, 2, 2, 3, 3,
  1, 1, 6, 1, 1, 3, 1, 1, 1, 20, 1, 83, 1, 139, 8, 166, 1, 38, 9, 41, 2839, 38, 1, 1, 5, 1, 2, 43,
  2, 3, 672, 86, 2, 6, 2178, 9, 7, 43, 2, 3, 64, 44, 63, 13, 1, 34, 101, 278, 2, 6, 2, 38, 2, 6, 2,
  8, 1, 1, 1, 1, 1, 1, 1, 31, 2, 53, 1, 7, 1, 1, 3, 3, 1, 7, 3, 4, 2, 6, 4, 13, 5, 3, 1, 7, 261, 1,
  4, 1, 2, 10, 1, 1, 3, 5, 6, 1, 1, 1, 1, 1, 1, 4, 1, 6, 4, 1, 2, 4, 5, 5, 4, 1, 17, 32, 3, 2, 817,
  52, 1814, 124, 2, 103, 6, 4, 3, 2, 12, 38, 1, 1, 5, 1, 30994, 46, 18, 28, 134, 78, 1, 23, 3, 4, 1,
  59, 5, 2, 1, 1, 1, 5, 27, 2, 3, 1, 821, 43, 5, 9, 7, 80, 20288, 7, 12, 5, 1033, 26, 6, 26, 1189,
  80, 96, 36, 4, 36, 116, 11, 1, 15, 1, 7, 1, 2, 1, 11, 1, 15, 1, 7, 1, 2, 1731, 51, 13, 51, 2989,
  64, 21856, 64, 25984, 85, 1, 71, 1, 2, 2, 1, 2, 2, 2, 4, 1, 12, 1, 1, 1, 7, 1, 65, 1, 4, 2, 8, 1,
  7, 1, 28, 1, 4, 1, 5, 1, 1, 3, 7, 1, 340, 2, 25, 1, 25, 1, 31, 1, 25, 1, 31, 1, 25, 1, 31, 1, 25,
  1, 31, 1, 25, 1, 8, 1844, 10, 1, 20, 2529, 68, 2028, 26, 6, 26, 6, 26]

/-- Characters that are skipped when the context of a letter is judged. -/
def caseIgnorableRuns : List Nat := [
  39, 1, 6, 1, 11, 1, 35, 1, 1, 1, 71, 1, 4, 1, 1, 1, 4, 1, 2, 2, 503, 192, 4, 2, 4, 1, 9, 2, 1, 1,
  251, 7, 207, 1, 5, 1, 49, 45, 1, 1, 1, 2, 1, 2, 1, 1, 44, 1, 11, 6, 10, 11, 1, 1, 35, 1, 10, 21,
  16, 1, 101, 8, 1, 10, 1, 4, 33, 1, 1, 1, 30, 27, 91, 11, 58, 11, 4, 1, 2, 1, 24, 24, 43, 3, 44, 1,
  7, 2, 6, 8, 41, 58, 55, 1, 1, 1, 4, 8, 4, 1, 3, 7, 10, 2, 13, 1, 15, 1, 58, 1, 4, 4, 8, 1, 20, 2,
  26, 1, 2, 2, 57, 1, 4, 2, 4, 2, 2, 3, 3, 1, 30, 2, 3, 1, 11, 2, 57, 1, 4, 5, 1, 2, 4, 1, 20, 2,
  22, 6, 1, 1, 58, 1, 2, 1, 1, 4, 8, 1, 7, 2, 11, 2, 30, 1, 61, 1, 12, 1, 50, 1, 3, 1, 55, 1, 1, 3,
  5, 3, 1, 4, 7, 2, 11, 2, 29, 1, 58, 1, 2, 1, 6, 1, 5, 2, 20, 2, 28, 2, 57, 2, 4, 4, 8, 1, 20, 2,
  29, 1, 72, 1, 7, 3, 1, 1, 90, 1, 2, 7, 11, 9, 98, 1, 2, 9, 9, 1, 1, 6, 74, 2, 27, 1, 1, 1, 1, 1,
  55, 14, 1, 5, 1, 2, 5, 11, 1, 36, 9, 1, 102, 4, 1, 6, 1, 2, 2, 2, 25, 2, 4, 3, 16, 4, 13, 1, 2, 2,
  6, 1, 15, 1, 94, 1, 608, 3, 946, 3, 29, 2, 30, 2, 30, 2, 64, 2, 1, 7, 8, 1, 2, 11, 3, 1, 5, 1, 45,
  5, 51, 1, 65, 2, 34, 1, 118, 3, 4, 2, 9, 1, 6, 3, 219, 2, 2, 1, 58, 1, 1, 7, 1, 1, 1, 1, 2, 8, 6,
  10, 2, 1, 39, 1, 8, 31, 49, 4, 48, 1, 1, 5, 1, 1, 5, 1, 40, 9, 12, 2, 32, 4, 2, 2, 1, 3, 56, 1, 1,
  2, 3, 1, 1, 3, 58, 8, 2, 2, 64, 6, 82, 3, 1, 13, 1, 7, 4, 1, 6, 1, 3, 2, 50, 63, 13, 1, 34, 101,
  445, 1, 1, 3, 11, 3, 13, 3, 13, 3, 13, 2, 12, 5, 8, 2, 10, 1, 2, 1, 2, 5, 49, 5, 1, 10, 1, 1, 13,
  1, 16, 13, 51, 33, 2955, 2, 113, 3, 125, 1, 15, 1, 96, 32, 47, 1, 469, 1, 36, 4, 3, 5, 5, 1, 93,
  6, 93, 3, 28438, 1, 1250, 6, 270, 1, 98, 4, 1, 10, 1, 1, 28, 4, 80, 2, 14, 34, 78, 1, 23, 3, 103,
  3, 3, 2, 8, 1, 3, 1, 4, 1, 25, 2, 5, 1, 151, 2, 26, 18, 13, 1, 38, 8, 25, 11, 46, 3, 48, 1, 2, 4,
  2, 2, 17, 1, 21, 2, 66, 6, 2, 2, 2, 2, 12, 1, 8, 1, 35, 1, 11, 1, 51, 1, 1, 3, 2, 2, 5, 2, 1, 1,
  27, 1, 14, 2, 5, 2, 1, 1, 100, 5, 9, 3, 121, 1, 2, 1, 4, 1, 20272, 1, 147, 17, 573, 16, 3, 1, 12,
  16, 34, 1, 2, 1, 169, 1, 7, 1, 6, 1, 11, 1, 35, 1, 1, 1, 47, 1, 45, 2, 67, 1, 21, 3, 513, 1, 226,
  1, 149, 5, 1029, 6, 1, 42, 1, 9, 582, 3, 1, 2, 5, 4, 40, 3, 4, 1, 165, 2, 573, 4, 387, 2, 153, 11,
  49, 4, 123, 1, 54, 15, 41, 1, 2, 2, 10, 3, 49, 4, 2, 2, 2, 1, 4, 1, 10, 1, 50, 3, 36, 5, 1, 8, 62,
  1, 12, 2, 52, 9, 10, 4, 2, 1, 95, 3, 2, 1, 1, 2, 6, 1, 160, 1, 3, 8, 21, 2, 57, 2, 3, 1, 37, 7, 3,
  5, 195, 8, 2, 3, 1, 1, 23, 1, 84, 6, 1, 1, 4, 2, 1, 2, 238, 4, 6, 2, 1, 2, 27, 2, 85, 8, 2, 1, 1,
  2, 106, 1, 1, 1, 2, 6, 1, 1, 101, 3, 2, 4, 1, 5, 259, 9, 1, 2, 256, 2, 1, 1, 4, 1, 144, 4, 2, 2,
  4, 1, 32, 10, 40, 6, 2, 4, 8, 1, 9, 6, 2, 3, 46, 13, 1, 2, 406, 7, 1, 6, 1, 1, 82, 22, 2, 7, 1, 2,
  1, 2, 122, 6, 3, 1, 1, 2, 1, 7, 1, 1, 72, 2, 3, 1, 1, 1, 347, 2, 5435, 9, 14007, 5, 59, 7, 9, 4,
  1035, 1, 63, 17, 64, 2, 1, 2, 16395, 4, 1, 7, 1, 2, 3230, 2, 1, 4, 4700, 46, 2, 23, 544, 3, 9, 16,
  2, 7, 30, 4, 148, 3, 1979, 55, 4, 50, 8, 1, 14, 1, 22, 5, 1, 15, 1360, 7, 1, 17, 2, 7, 1, 2, 1, 5,
  261, 14, 368, 1, 61, 4, 1504, 7, 109, 8, 2735, 5, 789505, 1, 30, 96, 128, 240]

end Sm83.Text
